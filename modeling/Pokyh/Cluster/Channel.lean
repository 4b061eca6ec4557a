import Mathlib.Algebra.Group.Nat.Defs
import Mathlib.Data.List.Sort
import Mathlib.Logic.Function.Basic
import Pokyh.Lib.Runs

/-!
# Cluster — Channel

Over which channel a node calls a peer, and which sessions of the peer it keeps (`transport.ts`, and
the parts of `index.ts` that set what is chosen from).  One link is modelled as one of its two nodes
sees it: the peer's record in the database, the objects made of it in memory (a reload makes a new
one, and calls under way keep the old), the calls, the handshakes, and the peer's sessions here.
Whatever the other end and the network do comes in as an event.

* `Sound`: what was chosen while the link was locked is not the plain channel, and a locked link keeps
  no unpinned session unless a way through this node's web proxy is offered.
* `lock_kept`: **in a run whose steps choose from what the lock requires, a locked link is never used
  over the plain channel, keeps no such session, and stays locked when it is reloaded.**
-/

namespace Pokyh.Cluster.Link
open Pokyh.Lib

inductive Channel where
  | tls | plain | path
  deriving DecidableEq, Repr

def SESSION_MAX_AGE_MS : ℕ := 60 * 60 * 1000
def SESSION_IDLE_MS : ℕ := 15 * 60 * 1000
def MAX_SERVER_SESSIONS_PER_PEER : ℕ := 4
def MAX_FRAMES_PER_SESSION : ℕ := 2 ^ 40
def ROTATION_GRACE_MS : ℕ := 15 * 60 * 1000

/-- A peer's pinned certificate, and the one before a rotation with the end of its grace. -/
structure PeerTls where
  pin : String
  previous : Option (String × ℕ)
  deriving DecidableEq, Repr

structure ClientSession where
  channel : Channel
  counter : ℕ
  createdAt : ℕ
  deriving DecidableEq, Repr

/-- A peer in memory; its session and handshake are named by their numbers. -/
structure Peer where
  tls : Option PeerTls
  tlsLocked : Bool
  tlsOutOk : Bool
  tlsInOk : Bool
  tlsRetryAt : ℕ
  paths : List String
  pathActive : Option String
  session : Option ℕ
  handshake : Option ℕ
  deriving DecidableEq, Repr

/-- What the database says of the peer. -/
structure PeerRow where
  active : Bool
  tls : Option PeerTls
  tlsLocked : Bool
  paths : List String
  deriving DecidableEq, Repr

structure ServerSession where
  sid : ℕ
  /-- The pin of the client certificate it was opened with; none outside the channel. -/
  channelPin : Option String
  createdAt : ℕ
  lastUsedAt : ℕ
  deriving DecidableEq, Repr

inductive HandshakeState where
  | pending | opened | failed
  deriving DecidableEq, Repr

structure Handshake where
  peer : ℕ
  channel : Channel
  /-- It runs over the mutually authenticated channel, bound to the two certificates. -/
  bound : Bool
  state : HandshakeState
  deriving DecidableEq, Repr

/-- Where a call stands: before it chooses its channel, waiting for a handshake, with a session, or
sent. -/
inductive Phase where
  | packing
  | opening (handshake : ℕ)
  | ready (session : ℕ)
  | sent (session : ℕ)
  | over
  deriving DecidableEq, Repr

structure Call where
  peer : ℕ
  channel : Channel
  attempt : ℕ
  phase : Phase
  /-- The link was locked when the channel was last chosen. -/
  informed : Bool
  deriving DecidableEq, Repr

/-- A change to the peer's record that is still on its way to the database. -/
inductive RowWrite where
  | lock
  | tls (tls : PeerTls)
  | paths (paths : List String)
  deriving DecidableEq, Repr

structure Node where
  now : ℕ
  /-- `CLUSTER_CHANNEL_RETRY_SECONDS`. -/
  retryMs : ℕ
  row : PeerRow
  /-- Copies of the record that were read and not used yet. -/
  reads : List PeerRow
  writes : List RowWrite
  /-- The peer's objects in memory, and how many there have been. -/
  peers : ℕ → Peer
  loaded : ℕ
  /-- The object that is in the list of peers. -/
  current : Option ℕ
  calls : ℕ → Option Call
  sessions : ℕ → ClientSession
  handshakes : ℕ → Option Handshake
  next : ℕ
  serverSessions : List ServerSession
  /-- This node has a certificate and a channel of its own. -/
  ownChannel : Bool
  /-- The ways through its web proxy that this node offers. -/
  ownPathWays : List String

namespace Node
variable (s : Node)

def setPeer (o : ℕ) (peer : Peer) : Node := { s with peers := Function.update s.peers o peer }

def setCall (c : ℕ) (call : Call) : Node := { s with calls := Function.update s.calls c (some call) }

/-- The link is locked to the channel, as the node sees it. -/
def locked : Bool := (s.current.map fun o => (s.peers o).tlsLocked).getD false

/-! ### Choosing the channel -/

def channelFor (peer : Peer) : Channel :=
  if peer.tls.isNone then .plain
  else if s.now ≥ peer.tlsRetryAt then .tls
  else if !peer.tlsLocked then .plain
  else if peer.paths ≠ [] then .path
  else .tls

/-- `ensureSession`: the session to use, or the handshake to wait for. -/
def ensureSession (o : ℕ) (channel : Channel) : Node × Phase :=
  let peer := s.peers o
  let usable := peer.session.filter fun k =>
    (s.sessions k).channel = channel && s.now - (s.sessions k).createdAt < SESSION_MAX_AGE_MS &&
      (s.sessions k).counter < MAX_FRAMES_PER_SESSION
  match usable with
  | some k => (s, .ready k)
  | none =>
      let joined := peer.handshake.filter fun h =>
        ((s.handshakes h).map Handshake.channel) = some channel
      match joined with
      | some h => (s.setPeer o { peer with session := none }, .opening h)
      | none =>
          ({ s.setPeer o { peer with session := none, handshake := some s.next } with
              handshakes := Function.update s.handshakes s.next
                (some ⟨o, channel, channel = .tls && peer.tls.isSome, .pending⟩)
              next := s.next + 1 },
            .opening s.next)

/-- One pass of the loop in `rpc` up to the session. -/
def attempt (c : ℕ) (call : Call) : Node :=
  if call.attempt < 3 then
    let (s, phase) := s.ensureSession call.peer call.channel
    s.setCall c { call with phase := phase }
  else s.setCall c { call with phase := .over }

def choose (c : ℕ) (call : Call) : Node :=
  s.attempt c { call with channel := s.channelFor (s.peers call.peer), attempt := 0,
                          informed := s.locked }

def fallBack (o : ℕ) : Node :=
  s.setPeer o { s.peers o with tlsRetryAt := s.now + s.retryMs }

/-- What a failed attempt leads to. -/
def failed (c : ℕ) (call : Call) (tooLarge : Bool) : Node :=
  let peer := s.peers call.peer
  let again (channel : Channel) : Node :=
    (s.fallBack call.peer).attempt c
      { call with channel := channel, attempt := call.attempt + 1, informed := s.locked }
  if call.channel = .tls ∧ tooLarge = false ∧ peer.tlsLocked = false then again .plain
  else if call.channel = .tls ∧ tooLarge = false ∧ peer.paths ≠ [] then again .path
  else s.setCall c { call with phase := .over }

/-- A frame leaves with the session's next counter. -/
def send (c : ℕ) (call : Call) (k : ℕ) : Node :=
  let used := { s.sessions k with counter := (s.sessions k).counter + 1 }
  let s := { s with sessions := Function.update s.sessions k used }
  if call.channel = .path ∧ (s.peers call.peer).pathActive.isNone then
    s.setCall c { call with phase := .over }
  else s.setCall c { call with phase := .sent k }

/-! ### The lock -/

/-- A direction of the link has worked over the channel. -/
def onChannelVerified (o : ℕ) : Node :=
  let peer := s.peers o
  if peer.tlsLocked || !peer.tlsOutOk || !peer.tlsInOk then s
  else
    { s.setPeer o { peer with
        tlsLocked := true
        session := peer.session.filter fun k => (s.sessions k).channel ≠ .plain } with
      serverSessions := s.serverSessions.filter fun session => session.channelPin.isSome
      writes := .lock :: s.writes }

end Node

/-- How a request came in: over the channel, with the pin of the client's certificate, or by another
entry point. -/
inductive Entry where
  | mtls (client : Option String)
  | other
  deriving DecidableEq, Repr

/-- What became of a call that was sent. -/
inductive Answer where
  | unknownSession | refused | unauthentic | unreadable | genuine
  deriving DecidableEq, Repr

namespace Node
variable (s : Node)

def forget (o k : ℕ) : Node :=
  if (s.peers o).session = some k then s.setPeer o { s.peers o with session := none } else s

def answered (c : ℕ) (call : Call) (k : ℕ) : Answer → Node
  | .unknownSession =>
      (s.forget call.peer k).attempt c { call with attempt := call.attempt + 1 }
  | .unauthentic => (s.forget call.peer k).setCall c { call with phase := .over }
  | .refused => s.setCall c { call with phase := .over }
  | .unreadable => s.setCall c { call with phase := .over }
  | .genuine =>
      let s := s.setCall c { call with phase := .over }
      if call.channel = .tls ∧ (s.peers call.peer).tlsOutOk = false then
        (s.setPeer call.peer { s.peers call.peer with tlsOutOk := true }).onChannelVerified call.peer
      else s

/-- The end of a handshake; `way` is the way through the peer's web proxy that worked. -/
def opened (h : ℕ) (handshake : Handshake) (way : String) : Node :=
  let peer := s.peers handshake.peer
  let channel : Channel :=
    if handshake.channel = .path then .path else if handshake.bound then .tls else .plain
  { s.setPeer handshake.peer { peer with
      session := some h
      handshake := if peer.handshake = some h then none else peer.handshake
      pathActive := if handshake.channel = .path then some way else peer.pathActive } with
    sessions := Function.update s.sessions h ⟨channel, 0, s.now⟩
    handshakes := Function.update s.handshakes h (some { handshake with state := .opened }) }

def refused (h : ℕ) (handshake : Handshake) : Node :=
  let peer := s.peers handshake.peer
  { s.setPeer handshake.peer { peer with
      handshake := if peer.handshake = some h then none else peer.handshake } with
    handshakes := Function.update s.handshakes h (some { handshake with state := .failed }) }

/-! ### Calls from the peer -/

def pinAccepted (peer : Peer) (pin : String) : Bool :=
  match peer.tls with
  | none => false
  | some tls => tls.pin = pin || tls.previous.any fun previous => previous.2 > s.now && previous.1 = pin

/-- Room for one more session of the peer: the ones not used for longest go. -/
def makeRoom : List ServerSession :=
  let mine := s.serverSessions.insertionSort fun a b => a.lastUsedAt ≤ b.lastUsedAt
  let gone := mine.take (mine.length + 1 - MAX_SERVER_SESSIONS_PER_PEER)
  s.serverSessions.filter fun session => session.sid ∉ gone.map ServerSession.sid

def addSession (pin : Option String) : Node :=
  { s with
    serverSessions := s.makeRoom ++ [⟨s.next, pin, s.now, s.now⟩]
    next := s.next + 1 }

/-- `handleSession`: the peer opens a session; `genuine` if it proves to hold the link key. -/
def handleSession (entry : Entry) (version : ℕ) (genuine : Bool) : Node :=
  match s.current with
  | none => s
  | some o =>
      let peer := s.peers o
      match entry with
      | .mtls client =>
          match client with
          | none => s
          | some pin =>
              if version ≠ 3 || !s.ownChannel || !s.pinAccepted peer pin || !genuine then s
              else
                let s := s.addSession (some pin)
                if peer.tlsInOk then s
                else (s.setPeer o { peer with tlsInOk := true }).onChannelVerified o
      | .other =>
          if version ≠ 2 || (peer.tlsLocked && s.ownPathWays = []) || !genuine then s
          else s.addSession none

/-- `handleRpc`: a call in one of the peer's sessions; `fresh` if its frame opens and is new. -/
def handleRpc (sid : ℕ) (entry : Entry) (fresh : Bool) : Node :=
  let presented : Option String := match entry with
    | .mtls client => client
    | .other => none
  match s.serverSessions.find? fun session => session.sid = sid with
  | none => s
  | some session =>
      if s.current.isNone || s.now - session.createdAt > SESSION_MAX_AGE_MS * 2 then
        { s with serverSessions := s.serverSessions.filter fun other => other.sid ≠ sid }
      else if session.channelPin ≠ presented || !fresh then s
      else
        { s with serverSessions := s.serverSessions.map fun other =>
            if other.sid = sid then { other with lastUsedAt := s.now } else other }

def sweepSessions : Node :=
  { s with serverSessions := s.serverSessions.filter fun session =>
      !(s.now - session.lastUsedAt > SESSION_IDLE_MS ||
        s.now - session.createdAt > SESSION_MAX_AGE_MS * 2) }

/-! ### What the peer announces -/

/-- The ways through the peer's web proxy, as it announces them. -/
def absorbPaths (o : ℕ) (ways : List String) : Node :=
  let peer := s.peers o
  if ways = peer.paths then s
  else
    { s.setPeer o { peer with
        paths := ways
        pathActive := peer.pathActive.filter fun way => way ∈ ways } with
      writes := .paths ways :: s.writes }

/-- The peer's channel, as it announces it; none if the certificate or the address is unusable. -/
def absorbChannel (o : ℕ) (pin : Option String) : Node :=
  let peer := s.peers o
  match pin with
  | none => s
  | some pin =>
      if !s.ownChannel || peer.tls.isSome || peer.tlsLocked then s
      else
        { s.setPeer o { peer with tls := some ⟨pin, none⟩, tlsRetryAt := 0 } with
          writes := .tls ⟨pin, none⟩ :: s.writes }

/-- `cert.rotate`: the peer has renewed its certificate. -/
def rotate (o : ℕ) (pin : String) : Node :=
  match (s.peers o).tls with
  | none => s
  | some tls =>
      if pin = tls.pin then s
      else
        { s.setPeer o { s.peers o with
            tls := some ⟨pin, some (tls.pin, s.now + ROTATION_GRACE_MS)⟩ } with
          writes := .tls ⟨pin, none⟩ :: s.writes }

/-! ### The record in the database and what is made of it -/

def land (write : RowWrite) : PeerRow :=
  match write with
  | .lock => { s.row with tlsLocked := true }
  | .tls tls => { s.row with tls := some { tls with previous := none } }
  | .paths paths => { s.row with paths := paths }

/-- `loadPeerRuntime`, for a record that can be used; `usable` if its certificate can be. -/
def loadPeerRuntime (row : PeerRow) (usable : Bool) (previous : Option Peer) : Peer :=
  let tls := if usable then row.tls.map fun tls => { tls with previous := none } else none
  let kept := previous.filter fun peer => tls.isSome && peer.tls.map PeerTls.pin = tls.map PeerTls.pin
  { tls := tls.map fun tls =>
      { tls with previous := (kept.bind Peer.tls).bind PeerTls.previous }
    tlsLocked := row.tlsLocked
    tlsOutOk := (kept.map Peer.tlsOutOk).getD false
    tlsInOk := (kept.map Peer.tlsInOk).getD false
    tlsRetryAt := (previous.map Peer.tlsRetryAt).getD 0
    paths := (previous.map Peer.paths).getD row.paths
    pathActive := previous.bind Peer.pathActive
    session := none
    handshake := none }

/-- A new object for the peer takes the place of the one before. -/
def install (peer : Peer) : Node :=
  { s.setPeer s.loaded peer with current := some s.loaded, loaded := s.loaded + 1 }

def dropSessionsOf : Node := { s with serverSessions := [] }

def unloadPeer : Node := { s.dropSessionsOf with current := none }

/-- The peer is read again (`updatePeer`); `readable` if its key and address can be used. -/
def reload (row : PeerRow) (readable usable : Bool) : Node :=
  let s := s.dropSessionsOf
  if row.active && readable then
    s.install (loadPeerRuntime row usable (s.current.map s.peers))
  else s

/-- The peer is loaded anew, after it was switched on or paired again. -/
def load (row : PeerRow) (readable usable : Bool) : Node :=
  let s := s.unloadPeer
  if row.active && readable then s.install (loadPeerRuntime row usable none) else s

/-- `updateReach`: once no way through the web proxy is offered any more, the unpinned sessions of a
locked link end. -/
def setReach (ways : List String) : Node :=
  { s with
    ownPathWays := ways
    serverSessions := if ways = [] ∧ s.locked
      then s.serverSessions.filter fun session => session.channelPin.isSome else s.serverSessions }

end Node

inductive Event where
  | pass (ms : ℕ)
  /-- A call on an object of the peer begins. -/
  | begin (c o : ℕ)
  /-- The call is packed and chooses its channel. -/
  | choose (c : ℕ)
  | opened (h : ℕ) (way : String)
  | refused (h : ℕ)
  /-- The call goes on with the session it waited for. -/
  | proceed (c : ℕ)
  | send (c : ℕ)
  | answer (c : ℕ) (answer : Answer)
  /-- The handshake the call waited for, or the connection it was sent over, has failed. -/
  | fail (c : ℕ) (tooLarge : Bool)
  | handleSession (entry : Entry) (version : ℕ) (genuine : Bool)
  | handleRpc (sid : ℕ) (entry : Entry) (fresh : Bool)
  | sweepSessions
  | absorb (o : ℕ) (pin : Option String) (ways : List String)
  | rotate (o : ℕ) (pin : String)
  | getPeer
  | reload (row : PeerRow) (readable usable : Bool)
  | load (row : PeerRow) (readable usable : Bool)
  | unload
  /-- A write to the peer's record arrives, or fails. -/
  | land (write : RowWrite)
  | lose (write : RowWrite)
  /-- The record is stored anew by a pairing (locked to the channel if that ran over it), or switched
  on or off. -/
  | store (row : PeerRow)
  | setReach (ways : List String)

def step (s : Node) : Event → Option Node
  | .pass ms => some { s with now := s.now + ms }
  | .begin c o =>
      if o < s.loaded ∧ (s.calls c).isNone then some (s.setCall c ⟨o, .tls, 0, .packing, false⟩)
      else none
  | .choose c =>
      match s.calls c with
      | some call => if call.phase = .packing then some (s.choose c call) else none
      | none => none
  | .opened h way =>
      match s.handshakes h with
      | some handshake => if handshake.state = .pending then some (s.opened h handshake way) else none
      | none => none
  | .refused h =>
      match s.handshakes h with
      | some handshake => if handshake.state = .pending then some (s.refused h handshake) else none
      | none => none
  | .proceed c =>
      match s.calls c with
      | some call =>
          match call.phase with
          | .opening h =>
              if ((s.handshakes h).map Handshake.state) = some .opened then
                some (s.setCall c { call with phase := .ready h })
              else none
          | _ => none
      | none => none
  | .send c =>
      match s.calls c with
      | some call =>
          match call.phase with
          | .ready k => some (s.send c call k)
          | _ => none
      | none => none
  | .answer c answer =>
      match s.calls c with
      | some call =>
          match call.phase with
          | .sent k => some (s.answered c call k answer)
          | _ => none
      | none => none
  | .fail c tooLarge =>
      match s.calls c with
      | some call =>
          match call.phase with
          | .opening h =>
              if ((s.handshakes h).map Handshake.state) = some .failed then some (s.failed c call false)
              else none
          | .sent _ => some (s.failed c call tooLarge)
          | _ => none
      | none => none
  | .handleSession entry version genuine => some (s.handleSession entry version genuine)
  | .handleRpc sid entry fresh => some (s.handleRpc sid entry fresh)
  | .sweepSessions => some s.sweepSessions
  | .absorb o pin ways => if o < s.loaded then some ((s.absorbPaths o ways).absorbChannel o pin) else none
  | .rotate o pin => if o < s.loaded then some (s.rotate o pin) else none
  | .getPeer => some { s with reads := s.row :: s.reads }
  | .reload row readable usable =>
      if s.current.isSome ∧ row ∈ s.reads then
        some ({ s with reads := s.reads.erase row }.reload row readable usable)
      else none
  | .load row readable usable =>
      if row ∈ s.reads then
        some ({ s with reads := s.reads.erase row }.load row readable usable)
      else none
  | .unload => some s.unloadPeer
  | .land write =>
      if write ∈ s.writes then some { s with row := s.land write, writes := s.writes.erase write }
      else none
  | .lose write => if write ∈ s.writes then some { s with writes := s.writes.erase write } else none
  | .store row => some { s with row := row }
  | .setReach ways => some (s.setReach ways)

/-- A process that has just started, with the peer as the database has it. -/
def Node.start (now retryMs : ℕ) (row : PeerRow) (readable usable ownChannel : Bool)
    (ways : List String) : Node :=
  let s : Node :=
    { now := now, retryMs := retryMs, row := row, reads := [], writes := []
      peers := fun _ => ⟨none, false, false, false, 0, [], none, none, none⟩
      loaded := 0, current := none, calls := fun _ => none, sessions := fun _ => ⟨.plain, 0, 0⟩
      handshakes := fun _ => none, next := 0, serverSessions := [], ownChannel := ownChannel
      ownPathWays := ways }
  s.load row readable usable

/-! ### The result -/

/-- What the lock promises of one step. -/
structure LockKept (s : Node) (e : Event) (s' : Node) : Prop where
  /-- No call leaves over the plain channel. -/
  notPlain : s.locked = true → ∀ c call, e = .send c → s.calls c = some call → call.channel ≠ .plain
  /-- No unpinned session is there unless this node offers a way through its web proxy. -/
  pinned : s'.locked = true → s'.ownPathWays = [] → ∀ session ∈ s'.serverSessions,
    session.channelPin ≠ none
  /-- Reading the peer again keeps the lock. -/
  reloaded : s.locked = true → ∀ row readable usable, e = .reload row readable usable → s'.locked = true

/-- While the link is locked: a call that chooses its channel finds a certificate, and the lock unless
the channel is due; one that fails over the channel finds the lock; what is sent over the plain channel
was not chosen before the lock; and the record that is read has the lock. -/
def Heeds (s : Node) : Event → Prop
  | .choose c => s.locked = true → ∀ call, s.calls c = some call →
      (s.peers call.peer).tls.isSome = true ∧
        ((s.peers call.peer).tlsLocked = true ∨ (s.peers call.peer).tlsRetryAt ≤ s.now)
  | .fail c _ => s.locked = true → ∀ call, s.calls c = some call → call.channel = .tls →
      (s.peers call.peer).tlsLocked = true
  | .send c => s.locked = true → ∀ call, s.calls c = some call → call.channel = .plain →
      call.informed = true
  | .reload row _ _ => s.locked = true → row.tlsLocked = true
  | _ => True

/-! ### What the steps leave alone -/

variable {s s' : Node} {c o : ℕ} {call : Call} {channel : Channel}

/-- The lock, the ways offered and the peer's sessions are the same. -/
def Quiet (s s' : Node) : Prop :=
  s'.locked = s.locked ∧ s'.ownPathWays = s.ownPathWays ∧ s'.serverSessions = s.serverSessions

theorem Quiet.refl (s : Node) : Quiet s s := ⟨rfl, rfl, rfl⟩

theorem Quiet.trans {s₁ s₂ s₃ : Node} (h₁ : Quiet s₁ s₂) (h₂ : Quiet s₂ s₃) : Quiet s₁ s₃ :=
  ⟨h₂.1.trans h₁.1, h₂.2.1.trans h₁.2.1, h₂.2.2.trans h₁.2.2⟩

/-- A change to an object that leaves its lock alone leaves the link's alone. -/
theorem locked_setPeer {peer : Peer} (h : peer.tlsLocked = (s.peers o).tlsLocked) :
    (s.setPeer o peer).locked = s.locked := by
  simp only [Node.locked, Node.setPeer]
  cases s.current with
  | none => rfl
  | some o' =>
      rcases eq_or_ne o' o with rfl | hne
      · simp [h]
      · simp [hne]

theorem quiet_setPeer {peer : Peer} (h : peer.tlsLocked = (s.peers o).tlsLocked) :
    Quiet s (s.setPeer o peer) := ⟨locked_setPeer h, rfl, rfl⟩

theorem quiet_setCall : Quiet s (s.setCall c call) := ⟨rfl, rfl, rfl⟩

theorem quiet_ensureSession : Quiet s (s.ensureSession o channel).1 := by
  simp only [Node.ensureSession]
  split
  · exact .refl s
  · split
    · exact quiet_setPeer rfl
    · exact ⟨locked_setPeer rfl, rfl, rfl⟩

theorem calls_ensureSession : (s.ensureSession o channel).1.calls = s.calls := by
  simp only [Node.ensureSession]
  split
  · rfl
  · split <;> rfl

theorem quiet_attempt : Quiet s (s.attempt c call) := by
  simp only [Node.attempt]
  split
  · exact quiet_ensureSession.trans quiet_setCall
  · exact quiet_setCall

/-- An attempt changes only the phase of its call. -/
theorem calls_attempt : ∃ phase, (s.attempt c call).calls =
    Function.update s.calls c (some { call with phase := phase }) := by
  simp only [Node.attempt]
  split
  · exact ⟨_, by rw [Node.setCall, calls_ensureSession]⟩
  · exact ⟨_, rfl⟩

theorem quiet_forget {k : ℕ} : Quiet s (s.forget o k) := by
  simp only [Node.forget]
  split
  · exact quiet_setPeer rfl
  · exact .refl s

theorem calls_forget {k : ℕ} : (s.forget o k).calls = s.calls := by
  simp only [Node.forget]
  split <;> rfl

/-- What the lock asks of the choice is what `channelFor` looks at. -/
theorem channelFor_ne_plain {peer : Peer} (htls : peer.tls.isSome = true)
    (h : peer.tlsLocked = true ∨ peer.tlsRetryAt ≤ s.now) : s.channelFor peer ≠ .plain := by
  simp only [Node.channelFor, Option.isNone_eq_false_iff.mpr htls]
  rcases h with h | h
  · simp only [h]
    split_ifs <;> simp_all
  · simp [h]

/-! ### What holds in every state -/

structure Sound (s : Node) : Prop where
  /-- What was chosen while the link was locked is not the plain channel. -/
  calls : ∀ c call, s.calls c = some call → call.informed = true → call.channel ≠ .plain
  pinned : s.locked = true → s.ownPathWays = [] → ∀ session ∈ s.serverSessions,
    session.channelPin ≠ none

theorem Sound.of_quiet (h : Sound s) (hq : Quiet s s')
    (hcalls : ∀ c call, s'.calls c = some call → call.informed = true → call.channel ≠ .plain) :
    Sound s' :=
  ⟨hcalls, by rw [hq.1, hq.2.1, hq.2.2]; exact h.pinned⟩

/-- A step that changes one call. -/
theorem Sound.of_update (h : Sound s) (hq : Quiet s s')
    (hcalls : s'.calls = Function.update s.calls c (some call))
    (hok : call.informed = true → call.channel ≠ .plain) : Sound s' := by
  refine h.of_quiet hq fun c' call' hc' => ?_
  rw [hcalls] at hc'
  rcases eq_or_ne c' c with rfl | hne
  · rw [Function.update_self] at hc'
    cases hc'
    exact hok
  · rw [Function.update_of_ne hne] at hc'
    exact h.calls c' call' hc'

theorem Sound.setCall (h : Sound s) (hok : call.informed = true → call.channel ≠ .plain) :
    Sound (s.setCall c call) := h.of_update quiet_setCall rfl hok

theorem Sound.attempt (h : Sound s) (hok : call.informed = true → call.channel ≠ .plain) :
    Sound (s.attempt c call) := by
  obtain ⟨phase, hcalls⟩ := @calls_attempt s c call
  exact h.of_update quiet_attempt hcalls hok

theorem Sound.choose (h : Sound s)
    (hok : s.locked = true → (s.peers call.peer).tls.isSome = true ∧
      ((s.peers call.peer).tlsLocked = true ∨ (s.peers call.peer).tlsRetryAt ≤ s.now)) :
    Sound (s.choose c call) :=
  h.attempt fun hinf => channelFor_ne_plain (hok hinf).1 (hok hinf).2

theorem Sound.failed {tooLarge : Bool} (h : Sound s) (hcall : s.calls c = some call)
    (hok : s.locked = true → call.channel = .tls → (s.peers call.peer).tlsLocked = true) :
    Sound (s.failed c call tooLarge) := by
  have hquiet : Quiet s (s.fallBack call.peer) := quiet_setPeer rfl
  have hfall : Sound (s.fallBack call.peer) := h.of_quiet hquiet h.calls
  simp only [Node.failed]
  split
  · next hc =>
    refine hfall.attempt fun hinf => ?_
    -- Locked, the object would have had the lock: the call goes another way.
    rw [hok hinf hc.1] at hc
    exact absurd hc.2.2 (by decide)
  · split
    · exact hfall.attempt fun _ => by simp
    · exact h.setCall (h.calls c call hcall)

theorem Sound.onChannelVerified (h : Sound s) : Sound (s.onChannelVerified o) := by
  simp only [Node.onChannelVerified]
  split
  · exact h
  · refine ⟨h.calls, fun _ _ session hsession => ?_⟩
    have := (List.mem_filter.mp hsession).2
    intro hn
    rw [hn] at this
    cases this

theorem Sound.answered {k : ℕ} {answer : Answer} (h : Sound s) (hcall : s.calls c = some call) :
    Sound (s.answered c call k answer) := by
  have hok := h.calls c call hcall
  have hforget : Sound (s.forget call.peer k) :=
    h.of_quiet quiet_forget (by rw [calls_forget]; exact h.calls)
  cases answer with
  | unknownSession => exact hforget.attempt hok
  | refused => exact h.setCall hok
  | unauthentic => exact hforget.setCall hok
  | unreadable => exact h.setCall hok
  | genuine =>
      have hover : Sound (s.setCall c { call with phase := .over }) := h.setCall hok
      simp only [Node.answered]
      split
      · refine Sound.onChannelVerified (hover.of_quiet (quiet_setPeer ?_) hover.calls)
        rfl
      · exact hover

theorem Sound.send {k : ℕ} (h : Sound s) (hcall : s.calls c = some call) :
    Sound (s.send c call k) := by
  have hok := h.calls c call hcall
  simp only [Node.send]
  split
  · exact h.of_update ⟨rfl, rfl, rfl⟩ rfl hok
  · exact h.of_update ⟨rfl, rfl, rfl⟩ rfl hok

theorem Sound.opened {n : ℕ} {handshake : Handshake} {way : String} (h : Sound s) :
    Sound (s.opened n handshake way) :=
  h.of_quiet ⟨locked_setPeer rfl, rfl, rfl⟩ h.calls

theorem Sound.refused {n : ℕ} {handshake : Handshake} (h : Sound s) :
    Sound (s.refused n handshake) :=
  h.of_quiet ⟨locked_setPeer rfl, rfl, rfl⟩ h.calls

/-- Fewer of the peer's sessions, none of them new. -/
theorem Sound.of_subset {sessions : List ServerSession} (h : Sound s)
    (hsub : ∀ session ∈ sessions, ∃ old ∈ s.serverSessions, session.channelPin = old.channelPin) :
    Sound { s with serverSessions := sessions } := by
  refine ⟨h.calls, fun hl hw session hs => ?_⟩
  obtain ⟨old, hold, he⟩ := hsub session hs
  rw [he]
  exact h.pinned hl hw old hold

theorem Sound.handleRpc {sid : ℕ} {entry : Entry} {fresh : Bool} (h : Sound s) :
    Sound (s.handleRpc sid entry fresh) := by
  simp only [Node.handleRpc]
  split
  · exact h
  · split_ifs
    · exact h.of_subset fun session hs => ⟨session, (List.mem_filter.mp hs).1, rfl⟩
    · exact h
    · refine h.of_subset fun session hs => ?_
      obtain ⟨old, hold, rfl⟩ := List.mem_map.mp hs
      refine ⟨old, hold, ?_⟩
      split <;> rfl

theorem Sound.sweepSessions (h : Sound s) : Sound s.sweepSessions :=
  h.of_subset fun session hs => ⟨session, (List.mem_filter.mp hs).1, rfl⟩

/-- **A session is let in** with a pin, or unpinned where that is allowed. -/
theorem Sound.addSession {pin : Option String} (h : Sound s)
    (hpin : pin = none → s.locked = true → s.ownPathWays = [] → False) : Sound (s.addSession pin) := by
  refine ⟨h.calls, fun hl hw session hs => ?_⟩
  rcases List.mem_append.mp hs with hs | hs
  · exact h.pinned hl hw session (List.mem_filter.mp hs).1
  · rw [List.mem_singleton.mp hs]
    exact fun hn => hpin hn hl hw

theorem Sound.handleSession {entry : Entry} {version : ℕ} {genuine : Bool} (h : Sound s) :
    Sound (s.handleSession entry version genuine) := by
  simp only [Node.handleSession]
  cases hcur : s.current with
  | none => exact h
  | some o =>
      have hlocked : s.locked = (s.peers o).tlsLocked := by simp [Node.locked, hcur]
      cases entry with
      | mtls client =>
          cases client with
          | none => exact h
          | some pin =>
              have hadd : Sound (s.addSession (some pin)) := h.addSession nofun
              simp only
              split
              · exact h
              · split
                · exact hadd
                · have hsame : ((s.addSession (some pin)).setPeer o
                      { s.peers o with tlsInOk := true }).locked = (s.addSession (some pin)).locked :=
                    locked_setPeer rfl
                  exact (hadd.of_quiet ⟨hsame, rfl, rfl⟩ hadd.calls).onChannelVerified
      | other =>
          simp only
          split
          · exact h
          · next hc =>
            refine h.addSession fun _ hl hw => hc ?_
            rw [hlocked] at hl
            simp [hl, hw]

theorem Sound.absorbPaths {ways : List String} (h : Sound s) : Sound (s.absorbPaths o ways) := by
  simp only [Node.absorbPaths]
  split
  · exact h
  · exact h.of_quiet ⟨locked_setPeer rfl, rfl, rfl⟩ h.calls

theorem Sound.absorbChannel {pin : Option String} (h : Sound s) : Sound (s.absorbChannel o pin) := by
  simp only [Node.absorbChannel]
  cases pin with
  | none => exact h
  | some pin =>
      simp only
      split
      · exact h
      · exact h.of_quiet ⟨locked_setPeer rfl, rfl, rfl⟩ h.calls

theorem Sound.rotate {pin : String} (h : Sound s) : Sound (s.rotate o pin) := by
  simp only [Node.rotate]
  split
  · exact h
  · split
    · exact h
    · exact h.of_quiet ⟨locked_setPeer rfl, rfl, rfl⟩ h.calls

/-- After the sessions are gone it does not matter what takes the peer's place. -/
theorem Sound.of_nil (h : Sound s) (hcalls : s'.calls = s.calls) (hs : s'.serverSessions = []) :
    Sound s' :=
  ⟨by rw [hcalls]; exact h.calls, fun _ _ => by rw [hs]; nofun⟩

theorem Sound.reload {row : PeerRow} {readable usable : Bool} (h : Sound s) :
    Sound (s.reload row readable usable) := by
  simp only [Node.reload]
  split <;> exact h.of_nil rfl rfl

theorem Sound.load {row : PeerRow} {readable usable : Bool} (h : Sound s) :
    Sound (s.load row readable usable) := by
  simp only [Node.load]
  split <;> exact h.of_nil rfl rfl

theorem Sound.setReach {ways : List String} (h : Sound s) : Sound (s.setReach ways) := by
  refine ⟨h.calls, fun hl hw session hs => ?_⟩
  have hl : s.locked = true := hl
  have hw : ways = [] := hw
  simp only [Node.setReach, hw, hl, and_self, if_true] at hs
  have := (List.mem_filter.mp hs).2
  intro hn
  rw [hn] at this
  cases this

theorem sound_start {now retryMs : ℕ} {row : PeerRow} {readable usable ownChannel : Bool}
    {ways : List String} : Sound (.start now retryMs row readable usable ownChannel ways) :=
  Sound.load ⟨nofun, nofun⟩

/-- **One step** keeps what holds. -/
theorem Sound.step {e : Event} (h : Sound s) (hok : Heeds s e) (hs : Link.step s e = some s') :
    Sound s' := by
  cases e with
  | pass ms => cases hs; exact h.of_quiet ⟨rfl, rfl, rfl⟩ h.calls
  | «begin» c o =>
      simp only [Link.step, Option.ite_none_right_eq_some] at hs
      obtain ⟨-, ⟨⟩⟩ := hs
      exact h.setCall nofun
  | choose c =>
      simp only [Link.step] at hs
      split at hs
      · next call hcall =>
        obtain ⟨-, ⟨⟩⟩ := Option.ite_none_right_eq_some.mp hs
        exact h.choose fun hl => hok hl call hcall
      · cases hs
  | opened n way =>
      simp only [Link.step] at hs
      split at hs
      · obtain ⟨-, ⟨⟩⟩ := Option.ite_none_right_eq_some.mp hs
        exact h.opened
      · cases hs
  | refused n =>
      simp only [Link.step] at hs
      split at hs
      · obtain ⟨-, ⟨⟩⟩ := Option.ite_none_right_eq_some.mp hs
        exact h.refused
      · cases hs
  | proceed c =>
      simp only [Link.step] at hs
      split at hs
      · next call hcall =>
        split at hs
        · obtain ⟨-, ⟨⟩⟩ := Option.ite_none_right_eq_some.mp hs
          exact h.setCall (h.calls c call hcall)
        · cases hs
      · cases hs
  | send c =>
      simp only [Link.step] at hs
      split at hs
      · next call hcall =>
        split at hs
        · cases hs
          exact h.send hcall
        · cases hs
      · cases hs
  | answer c answer =>
      simp only [Link.step] at hs
      split at hs
      · next call hcall =>
        split at hs
        · cases hs
          exact h.answered hcall
        · cases hs
      · cases hs
  | fail c tooLarge =>
      simp only [Link.step] at hs
      split at hs
      · next call hcall =>
        split at hs
        · obtain ⟨-, ⟨⟩⟩ := Option.ite_none_right_eq_some.mp hs
          exact h.failed hcall fun hl => hok hl call hcall
        · cases hs
          exact h.failed hcall fun hl => hok hl call hcall
        · cases hs
      · cases hs
  | handleSession entry version genuine => cases hs; exact h.handleSession
  | handleRpc sid entry fresh => cases hs; exact h.handleRpc
  | sweepSessions => cases hs; exact h.sweepSessions
  | absorb o pin ways =>
      obtain ⟨-, ⟨⟩⟩ := Option.ite_none_right_eq_some.mp hs
      exact h.absorbPaths.absorbChannel
  | rotate o pin =>
      obtain ⟨-, ⟨⟩⟩ := Option.ite_none_right_eq_some.mp hs
      exact h.rotate
  | getPeer => cases hs; exact h.of_quiet ⟨rfl, rfl, rfl⟩ h.calls
  | reload row readable usable =>
      obtain ⟨-, ⟨⟩⟩ := Option.ite_none_right_eq_some.mp hs
      exact Sound.reload (h.of_quiet ⟨rfl, rfl, rfl⟩ h.calls)
  | load row readable usable =>
      obtain ⟨-, ⟨⟩⟩ := Option.ite_none_right_eq_some.mp hs
      exact Sound.load (h.of_quiet ⟨rfl, rfl, rfl⟩ h.calls)
  | unload => cases hs; exact h.of_nil rfl rfl
  | land write =>
      obtain ⟨-, ⟨⟩⟩ := Option.ite_none_right_eq_some.mp hs
      exact h.of_quiet ⟨rfl, rfl, rfl⟩ h.calls
  | lose write =>
      obtain ⟨-, ⟨⟩⟩ := Option.ite_none_right_eq_some.mp hs
      exact h.of_quiet ⟨rfl, rfl, rfl⟩ h.calls
  | store row => cases hs; exact h.of_quiet ⟨rfl, rfl, rfl⟩ h.calls
  | setReach ways => cases hs; exact h.setReach

/-- What a step of a sound state promises. -/
theorem Sound.lockKept {e : Event} (h : Sound s) (hok : Heeds s e) (hs : Link.step s e = some s') :
    LockKept s e s' := by
  refine ⟨?_, (h.step hok hs).pinned, ?_⟩
  · rintro hl c call rfl hcall hplain
    exact h.calls c call hcall (hok hl call hcall hplain) hplain
  · rintro hl row readable usable rfl
    obtain ⟨-, ⟨⟩⟩ := Option.ite_none_right_eq_some.mp hs
    have hrow : row.tlsLocked = true := hok hl
    simp only [Node.reload]
    split
    · simp [Node.install, Node.locked, Node.setPeer, Node.loadPeerRuntime, hrow]
    · exact hl

/-- **The lock is kept** in a run whose steps choose from what it requires: a locked link is not used
over the plain channel, keeps no unpinned session unless this node offers a way through its web proxy,
and is locked after it was read again. -/
theorem lock_kept {now retryMs : ℕ} {row : PeerRow} {readable usable ownChannel : Bool}
    {ways : List String} {events : List Event}
    (hmeets : Meets step Heeds (.start now retryMs row readable usable ownChannel ways) events) :
    ∀ pre e post s s', events = pre ++ e :: post →
      run step (.start now retryMs row readable usable ownChannel ways) pre = some s →
        step s e = some s' → LockKept s e s' := by
  rintro pre e post s s' rfl hrun hstep
  have hsound : Sound s :=
    run_invariant_of_meets (fun _ _ _ h hok hs => h.step hok hs) sound_start hmeets.left hrun
  exact hsound.lockKept (hmeets.at_split hrun) hstep

section
/-- The peer as the database has it: active, locked to the channel. -/
def lockedRow : PeerRow := ⟨true, some ⟨"pin", none⟩, true, []⟩

/-- A call over the channel: packed, its session opened, sent and answered. -/
def channelCall : List Event :=
  [.begin 0 0, .choose 0, .opened 0 "", .proceed 0, .send 0]

theorem lock_kept_channelCall :
    ∃ s s', run step (.start 0 60000 lockedRow true true true []) channelCall.dropLast = some s ∧
      step s (.send 0) = some s' ∧ LockKept s (.send 0) s' := by
  have hmeets : Meets step Heeds (.start 0 60000 lockedRow true true true []) channelCall := by
    refine .cons trivial rfl (.cons ?_ rfl (.cons trivial rfl (.cons trivial rfl
      ⟨?_, fun _ _ => trivial⟩)))
    · rintro - call ⟨⟩
      exact ⟨rfl, .inl rfl⟩
    · rintro - call ⟨⟩ ⟨⟩
  exact ⟨_, _, rfl, rfl, lock_kept hmeets channelCall.dropLast (.send 0) [] _ _ rfl rfl rfl⟩

/-- Where the stored certificate is unusable, a call to the locked peer leaves over the plain
channel. -/
theorem lock_broken_unusable :
    ∃ s s', run step (.start 0 60000 lockedRow true false true []) channelCall.dropLast = some s ∧
      step s (.send 0) = some s' ∧ ¬ LockKept s (.send 0) s' :=
  ⟨_, _, rfl, rfl, fun h => h.notPlain rfl 0 _ rfl rfl rfl⟩

end

end Pokyh.Cluster.Link

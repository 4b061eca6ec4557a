import Mathlib.Logic.Function.Basic
import Pokyh.Cluster.Health
import Pokyh.Lib.Runs

/-!
# Cluster — Exclusive

Which node runs a job that must run once (`mayRunExclusive`, `startCluster` and `stopCluster` of
`index.ts`, `hooks.ts`).  The nodes are all linked with each other; each has a process that starts,
loads its peers, exchanges heartbeats and stops, and that may end at any moment.

A process answers yes while it is starting or stopping, and where it has loaded no peer.  A started
one answers yes only if it sees every peer it has loaded online, and owns the job among them and
itself.

* `exclusive`: **in a run in which all peers are loaded, and no node is starting or stopping while
  another sees everybody online, a job runs on one node at most.**
-/

namespace Pokyh.Cluster.Exclusive
open Pokyh.Lib

structure Deployment where
  /-- The nodes, all linked with each other. -/
  nodes : List String
  rendezvousScore : String → String → ℕ
  heartbeatIntervalMs : ℕ
  thresholds : HealthThresholds
  nodup : nodes.Nodup

inductive Phase where
  | off | starting | started | stopping
  deriving DecidableEq, Repr

structure Peer where
  nodeId : String
  health : Health
  failures : ℕ
  stale : Bool
  deriving DecidableEq, Repr

structure Node where
  phase : Phase
  startedAt : ℕ
  peers : List Peer
  deriving DecidableEq, Repr

section
variable (env : Deployment) (now : ℕ) (id : String) (node : Node)

/-- Right after the start no peer has answered yet. -/
def settling : Bool :=
  now - node.startedAt < env.heartbeatIntervalMs * 3 && node.peers.any fun peer => peer.health = .unknown

def mayRunExclusive (job : String) : Bool :=
  if node.phase ≠ .started ∨ node.peers = [] then true
  else if settling env now node then false
  else if node.peers.any fun peer => peer.health ≠ .online || peer.stale then false
  else rendezvousOwner env.rendezvousScore job (id :: node.peers.map Peer.nodeId) = some id

end

namespace Node

/-- The process runs and answers yes to everything. -/
def free (node : Node) : Bool :=
  node.phase = .starting || node.phase = .stopping || (node.phase = .started && node.peers = [])

/-- The process sees each of its peers online, with none on hold. -/
def complete (node : Node) : Bool :=
  node.phase = .started && node.peers ≠ [] && node.peers.all fun peer => peer.health = .online && !peer.stale

def setPeer (node : Node) (peerId : String) (change : Peer → Peer) : Node :=
  { node with peers := node.peers.map fun peer => if peer.nodeId = peerId then change peer else peer }

end Node

structure World where
  now : ℕ
  node : String → Node

def World.setNode (w : World) (id : String) (node : Node) : World :=
  { w with node := Function.update w.node id node }

inductive Event where
  | pass (ms : ℕ)
  /-- A process begins; until it has started, nothing is registered or loaded. -/
  | boot (id : String)
  /-- `startCluster` is done; the stored key of some peers cannot be read. -/
  | started (id : String) (unreadable : List String)
  | stop (id : String)
  /-- The process ends, by itself or not. -/
  | exit (id : String)
  /-- A heartbeat was answered, perhaps after a long absence. -/
  | answered (id peerId : String) (longAway : Bool)
  | missed (id peerId : String)
  /-- An administrator lifts the hold on a peer. -/
  | acceptStale (id peerId : String)

section
variable (env : Deployment)

def step (w : World) : Event → Option World
  | .pass ms => some { w with now := w.now + ms }
  | .boot id =>
      if id ∈ env.nodes ∧ (w.node id).phase = .off then some (w.setNode id ⟨.starting, w.now, []⟩)
      else none
  | .started id unreadable =>
      if id ∈ env.nodes ∧ (w.node id).phase = .starting then
        some (w.setNode id ⟨.started, w.now,
          (env.nodes.filter fun peerId => peerId ≠ id && peerId ∉ unreadable).map
            fun peerId => ⟨peerId, .unknown, 0, false⟩⟩)
      else none
  | .stop id =>
      if (w.node id).phase = .started then some (w.setNode id { w.node id with phase := .stopping })
      else none
  | .exit id => some (w.setNode id { w.node id with phase := .off })
  | .answered id peerId longAway =>
      if (w.node id).phase = .started then
        some (w.setNode id ((w.node id).setPeer peerId fun peer =>
          { peer with failures := 0, health := .online, stale := peer.stale || longAway }))
      else none
  | .missed id peerId =>
      if (w.node id).phase = .started then
        some (w.setNode id ((w.node id).setPeer peerId fun peer =>
          { peer with failures := peer.failures + 1
                      health := healthAfter (peer.failures + 1) env.thresholds }))
      else none
  | .acceptStale id peerId =>
      if (w.node id).phase = .started then
        some (w.setNode id ((w.node id).setPeer peerId fun peer => { peer with stale := false }))
      else none

def World.start (now : ℕ) : World := ⟨now, fun _ => ⟨.off, 0, []⟩⟩

/-! ### The result -/

/-- No job may run on two nodes. -/
def OnOneNode (w : World) : Prop :=
  ∀ job x y, (w.node x).phase ≠ .off → (w.node y).phase ≠ .off →
    mayRunExclusive env w.now x (w.node x) job = true →
    mayRunExclusive env w.now y (w.node y) job = true → x = y

/-- A process begins to start or to stop only while no other is doing so or sees everybody online, and
comes to see everybody online only while no other is starting or stopping; the keys of all peers can
be read. -/
def Quiet (w : World) : Event → Prop
  | .boot id => ∀ other, other ≠ id → (w.node other).free = false ∧ (w.node other).complete = false
  | .stop id => ∀ other, other ≠ id → (w.node other).free = false ∧ (w.node other).complete = false
  | .started _ unreadable => ∀ peerId ∈ unreadable, peerId ∉ env.nodes
  | .answered id peerId longAway => ∀ w', step env w (.answered id peerId longAway) = some w' →
      (w'.node id).complete = true → ∀ other, other ≠ id → (w.node other).free = false
  | .missed id peerId => ∀ w', step env w (.missed id peerId) = some w' →
      (w'.node id).complete = true → ∀ other, other ≠ id → (w.node other).free = false
  | .acceptStale id peerId => ∀ w', step env w (.acceptStale id peerId) = some w' →
      (w'.node id).complete = true → ∀ other, other ≠ id → (w.node other).free = false
  | _ => True

/-! ### What holds in every state -/

structure Sound (w : World) : Prop where
  /-- A started process has loaded all the others. -/
  loaded : ∀ id, (w.node id).phase = .started →
    id ∈ env.nodes ∧ (w.node id).peers.map Peer.nodeId = env.nodes.filter (· ≠ id)
  /-- While a process answers yes to everything, no other answers yes to anything. -/
  alone : ∀ x y, x ≠ y → (w.node x).free = true →
    (w.node y).free = false ∧ (w.node y).complete = false

end

variable {env : Deployment} {w w' : World} {id : String} {node : Node}

theorem setNode_self : (w.setNode id node).node id = node := Function.update_self ..

theorem setNode_of_ne {other : String} (h : other ≠ id) : (w.setNode id node).node other = w.node other :=
  Function.update_of_ne h ..

theorem free_iff : node.free = true ↔
    (node.phase = .starting ∨ node.phase = .stopping) ∨ (node.phase = .started ∧ node.peers = []) := by
  simp [Node.free]

theorem complete_iff : node.complete = true ↔ (node.phase = .started ∧ node.peers ≠ []) ∧
    ∀ peer ∈ node.peers, peer.health = .online ∧ peer.stale = false := by
  simp [Node.complete]

theorem setPeer_nodeIds {peerId : String} {change : Peer → Peer}
    (hchange : ∀ peer, (change peer).nodeId = peer.nodeId) :
    (node.setPeer peerId change).peers.map Peer.nodeId = node.peers.map Peer.nodeId := by
  simp only [Node.setPeer, List.map_map]
  refine List.map_congr_left fun peer _ => ?_
  simp only [Function.comp_apply]
  split
  · exact hchange peer
  · rfl

/-- **Who answers yes**: a process that is free, or one that sees everybody online and owns the
job. -/
theorem yes_cases {now : ℕ} {job : String} (hoff : node.phase ≠ .off)
    (h : mayRunExclusive env now id node job = true) :
    node.free = true ∨ node.phase = .started ∧ node.complete = true ∧
      rendezvousOwner env.rendezvousScore job (id :: node.peers.map Peer.nodeId) = some id := by
  simp only [mayRunExclusive] at h
  by_cases hfree : node.phase ≠ .started ∨ node.peers = []
  · refine .inl (free_iff.mpr ?_)
    rcases hphase : node.phase with _ | _ | _ | _
    · exact absurd hphase hoff
    · simp
    · simpa [hphase] using hfree
    · simp
  · right
    rw [if_neg hfree] at h
    push Not at hfree
    split_ifs at h with hsettling haway
    refine ⟨hfree.1, complete_iff.mpr ⟨hfree, fun peer hpeer => ?_⟩, of_decide_eq_true h⟩
    by_contra hne
    refine haway (List.any_eq_true.mpr ⟨peer, hpeer, ?_⟩)
    cases hs : peer.stale
    · simpa [hs] using hne
    · simp

/-- A step that changes one node: it is enough to look at that node. -/
theorem Sound.setNode (h : Sound env w)
    (hloaded : node.phase = .started → id ∈ env.nodes ∧ node.peers.map Peer.nodeId = env.nodes.filter (· ≠ id))
    (hfree : node.free = true → ∀ other, other ≠ id →
      (w.node other).free = false ∧ (w.node other).complete = false)
    (hothers : ∀ other, other ≠ id → (w.node other).free = true →
      node.free = false ∧ node.complete = false) : Sound env (w.setNode id node) := by
  refine ⟨fun x hx => ?_, fun x y hne hx => ?_⟩
  · rcases eq_or_ne x id with rfl | hxid
    · rw [setNode_self] at hx ⊢
      exact hloaded hx
    · rw [setNode_of_ne hxid] at hx ⊢
      exact h.loaded x hx
  · rcases eq_or_ne x id with rfl | hxid
    · rw [setNode_self] at hx
      rw [setNode_of_ne hne.symm]
      exact hfree hx y hne.symm
    · rw [setNode_of_ne hxid] at hx
      rcases eq_or_ne y id with rfl | hyid
      · rw [setNode_self]
        exact hothers x hxid hx
      · rw [setNode_of_ne hyid]
        exact h.alone x y hne hx

/-- A step by which a started process learns about a peer. -/
theorem Sound.setPeer {peerId : String} {change : Peer → Peer} (h : Sound env w)
    (hphase : (w.node id).phase = .started) (hchange : ∀ peer, (change peer).nodeId = peer.nodeId)
    (hquiet : ((w.node id).setPeer peerId change).complete = true → ∀ other, other ≠ id →
      (w.node other).free = false) :
    Sound env (w.setNode id ((w.node id).setPeer peerId change)) := by
  have hloaded := h.loaded id hphase
  have hids := @setPeer_nodeIds (w.node id) peerId change hchange
  have hfreeEq : ((w.node id).setPeer peerId change).free = (w.node id).free := by
    rw [Bool.eq_iff_iff, free_iff, free_iff]
    simp [Node.setPeer]
  refine h.setNode (fun _ => ⟨hloaded.1, hids.trans hloaded.2⟩) (fun hf => ?_) fun other hne hf => ?_
  · exact fun other hne => h.alone id other hne.symm (hfreeEq ▸ hf)
  · refine ⟨hfreeEq.trans (h.alone other id hne hf).1, ?_⟩
    cases hc : ((w.node id).setPeer peerId change).complete with
    | false => rfl
    | true => rw [hquiet hc other hne] at hf; cases hf

/-- **One step** keeps what holds. -/
theorem Sound.step {e : Event} (h : Sound env w) (hq : Quiet env w e)
    (hs : Exclusive.step env w e = some w') : Sound env w' := by
  cases e with
  | pass ms => cases hs; exact ⟨h.loaded, h.alone⟩
  | boot id =>
      obtain ⟨-, ⟨⟩⟩ := Option.ite_none_right_eq_some.mp hs
      refine h.setNode nofun (fun _ => hq) fun other hne hf => ?_
      rw [(hq other hne).1] at hf
      cases hf
  | started id unreadable =>
      obtain ⟨⟨hid, hphase⟩, ⟨⟩⟩ := Option.ite_none_right_eq_some.mp hs
      have hfree : (w.node id).free = true := free_iff.mpr (.inl (.inl hphase))
      refine h.setNode (fun _ => ⟨hid, ?_⟩) (fun _ other hne => h.alone id other hne.symm hfree)
        fun other hne hf => ?_
      · rw [List.map_map]
        refine (List.map_id' _).trans (List.filter_congr fun peerId hp => ?_)
        have : peerId ∉ unreadable := fun hu => hq peerId hu hp
        simp [this]
      · rw [(h.alone id other hne.symm hfree).1] at hf
        cases hf
  | stop id =>
      obtain ⟨-, ⟨⟩⟩ := Option.ite_none_right_eq_some.mp hs
      refine h.setNode nofun (fun _ => hq) fun other hne hf => ?_
      rw [(hq other hne).1] at hf
      cases hf
  | exit id =>
      cases hs
      refine h.setNode nofun (fun hf => ?_) fun other hne _ => ?_
      · simp [Node.free] at hf
      · simp [Node.free, Node.complete]
  | answered id peerId longAway =>
      obtain ⟨hphase, hw⟩ := Option.ite_none_right_eq_some.mp hs
      have hq' := hq _ hs
      cases hw
      rw [setNode_self] at hq'
      exact h.setPeer hphase (fun _ => rfl) hq'
  | missed id peerId =>
      obtain ⟨hphase, hw⟩ := Option.ite_none_right_eq_some.mp hs
      have hq' := hq _ hs
      cases hw
      rw [setNode_self] at hq'
      exact h.setPeer hphase (fun _ => rfl) hq'
  | acceptStale id peerId =>
      obtain ⟨hphase, hw⟩ := Option.ite_none_right_eq_some.mp hs
      have hq' := hq _ hs
      cases hw
      rw [setNode_self] at hq'
      exact h.setPeer hphase (fun _ => rfl) hq'

/-- The node itself and the peers it has loaded are all the nodes. -/
theorem perm_of_loaded (h : Sound env w) (hphase : (w.node id).phase = .started) :
    (id :: (w.node id).peers.map Peer.nodeId).Perm env.nodes := by
  obtain ⟨hid, hpeers⟩ := h.loaded id hphase
  have herase : env.nodes.filter (· ≠ id) = env.nodes.erase id := by
    rw [env.nodup.erase_eq_filter]
    exact List.filter_congr fun peerId _ => by by_cases h : peerId = id <;> simp [h]
  rw [hpeers, herase]
  exact (List.perm_cons_erase hid).symm

/-- **At most one node answers yes.** -/
theorem Sound.onOneNode (h : Sound env w) : OnOneNode env w := by
  intro job x y hx hy hyes hyes'
  by_contra hne
  rcases yes_cases hx hyes with hfree | ⟨hphase, hcomplete, howner⟩
  · have halone := h.alone x y hne hfree
    rcases yes_cases hy hyes' with hfree' | ⟨-, hcomplete', -⟩
    · rw [halone.1] at hfree'
      cases hfree'
    · rw [halone.2] at hcomplete'
      cases hcomplete'
  · rcases yes_cases hy hyes' with hfree' | ⟨hphase', -, howner'⟩
    · rw [(h.alone y x (Ne.symm hne) hfree').2] at hcomplete
      cases hcomplete
    · rw [rendezvousOwner_perm (perm_of_loaded h hphase)] at howner
      rw [rendezvousOwner_perm (perm_of_loaded h hphase'), howner] at howner'
      exact hne (Option.some.inj howner')

theorem sound_start (now : ℕ) : Sound env (.start now) :=
  ⟨nofun, fun _ _ _ h => by cases h⟩

section
/-- Two nodes; `node-one` has the higher score for the archiver. -/
def twoNodes : Deployment where
  nodes := ["node-one", "node-two"]
  rendezvousScore := fun key id =>
    if key = "archiver" ∧ id = "node-one" then 18176458818910071802 else 10608193985698291019
  heartbeatIntervalMs := 5000
  thresholds := ⟨2, 4⟩
  nodup := by decide

/-- The two start one after the other and hear from each other. -/
def bothStarted : List Event :=
  [.boot "node-one", .started "node-one" [], .boot "node-two", .started "node-two" [],
    .answered "node-one" "node-two" false, .answered "node-two" "node-one" false]

end

end Pokyh.Cluster.Exclusive

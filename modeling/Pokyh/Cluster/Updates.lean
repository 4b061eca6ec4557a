import Mathlib.Logic.Function.Basic
import Pokyh.Cluster.Health
import Pokyh.Cluster.Rollout
import Pokyh.Lib.Runs

/-!
# Cluster — Updates

When a node starts to update (`updates.ts`): at a tick, from what the heartbeats have told it of the
others since its process started.  The target is fixed and the nodes are all linked with each other;
time passes, heartbeats and their answers are delayed or never arrive, processes restart (with any
build) and the updater's files change at any moment.

What a node was told is lost at a restart, and a peer nothing is known of counts as one that Pokyh
does not update, so the rollout passes over it.  The same goes for a peer whose updater was silent
when it last reported.

* `no_overtaking`: **in a run whose nodes know better at each tick, a node starts its update only after
  each self-updating node before it has reported the target or has been out of reach for the skip
  time.**
-/

namespace Pokyh.Cluster.Updates
open Pokyh.Lib

def updaterFreshMs : ℕ := 60000

inductive LocalState where
  | idle | fetching | requested | preparing | building | starting | switching | done | failed
  deriving DecidableEq, Repr

def LocalState.busy (state : LocalState) : Bool :=
  state ∈ [.fetching, .requested, .preparing, .building, .starting, .switching]

/-- The nodes and how they are set up. -/
structure Deployment where
  sha256 : String → String
  target : String
  skipOfflineMs : ℕ
  thresholds : HealthThresholds
  /-- The nodes, all linked with each other. -/
  nodes : List String
  name : String → String
  /-- `POKYH_UPDATE_DIR` is set. -/
  updateDir : String → Bool
  /-- The node runs in one of the updater's two containers. -/
  color : String → Bool
  nodup : nodes.Nodup
  target_ne : target ≠ ""

/-- The node is looked after by Pokyh's updater. -/
def Deployment.managed (env : Deployment) (id : String) : Bool :=
  env.updateDir id && env.color id

/-! ### What is in the update directory -/

structure UpdaterStatus where
  id : String
  state : LocalState
  commit : Option String
  /-- The update takes back an earlier one. -/
  rollback : Bool
  deriving DecidableEq, Repr

structure Files where
  /-- `updater.json`: when the updater last wrote its heartbeat. -/
  beat : Option ℕ
  /-- `status.json`. -/
  status : Option UpdaterStatus
  /-- `request.json`: the id of the last request. -/
  request : Option String
  /-- `failed.json`: the commit the node failed to update to. -/
  failed : Option String
  deriving DecidableEq, Repr

/-- Whether Pokyh's updater looks after this node. -/
def selfUpdating (env : Deployment) (now : ℕ) (id : String) (files : Files) : Bool :=
  env.updateDir id && env.color id &&
    match files.beat with
    | none => false
    | some at' => (now - at') + (at' - now) < updaterFreshMs

/-! ### A process and what it knows of the others -/

/-- What a node tells the others about its version. -/
structure UpdateAdvert where
  commit : Option String
  self : Bool
  state : LocalState
  target : Option String
  failed : Option String
  deriving DecidableEq, Repr

/-- What a process knows of a peer. -/
structure PeerView where
  health : Health
  failures : ℕ
  lastSeenAt : Option ℕ
  heartbeating : Bool
  name : Option String
  update : Option UpdateAdvert
  deriving DecidableEq, Repr

/-- Nothing is known of a peer at the start. -/
def PeerView.empty : PeerView := ⟨.unknown, 0, none, false, none, none⟩

structure Local where
  state : LocalState
  target : Option String
  requestId : Option String
  failed : Option String
  rollback : Bool
  since : ℕ
  deriving DecidableEq, Repr

structure Process where
  commit : String
  /-- Tells this process from the earlier ones of its node. -/
  life : ℕ
  /-- When the process began. -/
  bootAt : ℕ
  startedAt : ℕ
  /-- `startUpdates` has run. -/
  ticking : Bool
  localState : Local
  lastTarget : Option String
  /-- The report of the updater that was acted on last. -/
  settledId : Option String
  peers : String → PeerView

/-- A new process: nothing is known of the peers. -/
def Process.start (commit : String) (life now : ℕ) : Process :=
  ⟨commit, life, now, now, false, ⟨.idle, none, none, none, false, 0⟩, none, none, fun _ => .empty⟩

namespace Process
variable (env : Deployment) (now : ℕ) (id : String) (files : Files) (p : Process)

/-- `startUpdates`: from now on the process ticks; an earlier failure is read back. -/
def startUpdates : Process :=
  if p.ticking then p
  else
    { p with
      startedAt := now
      ticking := true
      localState := if env.updateDir id && files.failed.isSome
        then { p.localState with failed := files.failed } else p.localState }

def updateAdvert : UpdateAdvert :=
  ⟨if p.commit = "" then none else some p.commit, selfUpdating env now id files, p.localState.state,
    p.localState.target, p.localState.failed⟩

def peerOfflineFor (peer : PeerView) : ℕ :=
  if peer.health = .online then 0 else now - peer.lastSeenAt.getD p.startedAt

def peerNode (peerId : String) : RolloutNode :=
  let peer := p.peers peerId
  { id := peerId
    name := peer.name.getD (env.name peerId)
    commit := (peer.update.bind UpdateAdvert.commit).getD ""
    selfUpdating := (peer.update.map UpdateAdvert.self).getD false
    online := peer.health = .online
    offlineForMs := p.peerOfflineFor now peer
    failed := peer.update.bind UpdateAdvert.failed
    updating := (peer.update.map fun update => update.state.busy).getD false }

def selfNode : RolloutNode :=
  { id := id
    name := env.name id
    commit := p.commit
    selfUpdating := selfUpdating env now id files
    online := true
    offlineForMs := 0
    failed := p.localState.failed
    updating := p.localState.state.busy }

def rolloutNodes : List RolloutNode :=
  p.selfNode env now id files :: (env.nodes.filter (· ≠ id)).map (p.peerNode env now)

/-- `followUpdater`: what the updater reports on the request this node made. -/
def followUpdater : Process × Files :=
  match files.status with
  | none => (p, files)
  | some status =>
      if p.settledId = some status.id then (p, files)
      else
        let terminal := status.state = .done ∨ status.state = .failed
        let found := p.localState.requestId.isNone && files.request = some status.id
        if p.localState.requestId.isNone && !found then (p, files)
        else
          let known : Local := if found
            then { p.localState with requestId := some status.id, target := status.commit,
                                     rollback := status.rollback }
            else p.localState
          if found = true ∧ terminal then
            ({ p with localState := { known with state := status.state }, settledId := some status.id },
              files)
          else if known.requestId ≠ some status.id then ({ p with localState := known }, files)
          else
            let reported := status.state ∈ [LocalState.preparing, .building, .starting, .switching,
              .done, .failed]
            let next : Local := { known with state := if reported then status.state else known.state }
            if ¬ terminal then ({ p with localState := next }, files)
            else if next.state = .failed ∧ next.target.isSome ∧ next.rollback = false then
              ({ p with localState := { next with failed := next.target }, settledId := some status.id },
                { files with failed := next.target })
            else ({ p with localState := next, settledId := some status.id }, files)

/-- The updater went away while this node waited for it. -/
def silentUpdater : Process × Files :=
  if p.localState.state = .requested ∧ selfUpdating env now id files = false ∧
      now - p.localState.since > 2 * updaterFreshMs then
    let gone := { p.localState with state := .failed }
    if gone.target.isSome then
      ({ p with localState := { gone with failed := gone.target } }, { files with failed := gone.target })
    else ({ p with localState := gone }, files)
  else (p, files)

/-- A newer version than the one just finished (or failed): ready again. -/
def newTarget (target : Option String) : Process :=
  if target = p.lastTarget then p
  else
    { p with
      localState := if p.lastTarget.isSome &&
          (p.localState.state = .done || p.localState.state = .failed)
        then { p.localState with state := .idle } else p.localState
      lastTarget := target }

/-- A tick up to its decision; `known` if there is a target to decide about. -/
def beforeDecision (known : Bool) : Process × Files :=
  let (p, files) := if env.updateDir id then p.followUpdater files else (p, files)
  let (p, files) := p.silentUpdater env now id files
  (p.newTarget (if known then some env.target else none), files)

def decision : RolloutDecision :=
  decideRollout env.sha256 env.target id (p.rolloutNodes env now id files) env.skipOfflineMs

/-- The tick starts the update. -/
def starts (known : Bool) : Bool :=
  let (p, files) := p.beforeDecision env now id files known
  known && (p.decision env now id files).action = .update && !p.localState.state.busy && env.updateDir id

def tick (known : Bool) : Process × Files :=
  let (q, files') := p.beforeDecision env now id files known
  if p.starts env now id files known then
    ({ q with localState := { q.localState with state := .fetching, target := some env.target,
                                                since := now } }, files')
  else (q, files')

/-- The end of `startUpdate`: the request is written. -/
def request (requestId : String) : Process × Files :=
  ({ p with localState := { p.localState with requestId := some requestId, rollback := false,
                                              state := .requested } },
    { files with request := some requestId })

/-- A heartbeat, or the answer to one, is heard. -/
def setPeer (peerId : String) (peer : PeerView) : Process :=
  { p with peers := Function.update p.peers peerId peer }

end Process

/-- `absorbHeartbeat`: what a peer reports about itself replaces what was known. -/
def PeerView.absorb (peer : PeerView) (name : String) (update : UpdateAdvert) : PeerView :=
  { peer with name := some name, update := some update }

/-! ### All nodes together -/

structure Message where
  /-- An answer, not a heartbeat. -/
  isReply : Bool
  sender : String
  receiver : String
  /-- The process that waits for the answer. -/
  life : ℕ
  update : UpdateAdvert
  deriving DecidableEq, Repr

structure World where
  now : ℕ
  procs : String → Process
  files : String → Files
  network : List Message
  /-- Who heard from whom, and when. -/
  contacts : List (String × String × ℕ)
  /-- Who was told by whom that it runs the target. -/
  reported : List (String × String)

inductive Event where
  | pass (ms : ℕ)
  /-- The updater or an administrator changes the files of a node. -/
  | files (id : String) (files : Files)
  /-- The process of a node ends and a new one starts, from any build. -/
  | restart (id commit : String)
  | startUpdates (id : String)
  | heartbeat (id peerId : String)
  | deliver (message : Message)
  /-- A heartbeat has failed, or its answer was waited for too long. -/
  | fail (id peerId : String)
  | tick (id : String) (known : Bool)
  | request (id requestId : String)

namespace World

def setProc (w : World) (id : String) (p : Process) : World :=
  { w with procs := Function.update w.procs id p }

def setFiles (w : World) (id : String) (files : Files) : World :=
  { w with files := Function.update w.files id files }

variable (env : Deployment) (w : World)

def advert (id : String) : UpdateAdvert :=
  (w.procs id).updateAdvert env w.now id (w.files id)

/-- A node hears from a peer: the report is taken over, and the time noted. -/
def hear (id peerId : String) (update : UpdateAdvert) (change : PeerView → PeerView) : World :=
  { w.setProc id ((w.procs id).setPeer peerId
      (change ({ (w.procs id).peers peerId with lastSeenAt := some w.now }.absorb
        (env.name peerId) update))) with
    contacts := (id, peerId, w.now) :: w.contacts
    reported := if update.commit = some env.target then (id, peerId) :: w.reported else w.reported }

end World

variable (env : Deployment)

def step (w : World) : Event → Option World
  | .pass ms => some { w with now := w.now + ms }
  | .files id files => some (w.setFiles id files)
  | .restart id commit => some (w.setProc id (.start commit ((w.procs id).life + 1) w.now))
  | .startUpdates id =>
      some (w.setProc id ((w.procs id).startUpdates env w.now id (w.files id)))
  | .heartbeat id peerId =>
      let p := w.procs id
      if id ∈ env.nodes ∧ peerId ∈ env.nodes ∧ id ≠ peerId ∧ (p.peers peerId).heartbeating = false then
        some { w.setProc id (p.setPeer peerId { p.peers peerId with heartbeating := true }) with
          network := ⟨false, id, peerId, p.life, w.advert env id⟩ :: w.network }
      else none
  | .deliver message =>
      if message ∈ w.network then
        let w := { w with network := w.network.erase message }
        if message.isReply then
          let p := w.procs message.receiver
          if p.life = message.life ∧ (p.peers message.sender).heartbeating then
            some (w.hear env message.receiver message.sender message.update fun peer =>
              { peer with failures := 0, health := .online, heartbeating := false })
          else some w
        else
          let w := w.hear env message.receiver message.sender message.update id
          some { w with network :=
            ⟨true, message.receiver, message.sender, message.life, w.advert env message.receiver⟩ ::
              w.network }
      else none
  | .fail id peerId =>
      let peer := (w.procs id).peers peerId
      if peer.heartbeating then
        some (w.setProc id ((w.procs id).setPeer peerId
          { peer with failures := peer.failures + 1
                      health := healthAfter (peer.failures + 1) env.thresholds
                      heartbeating := false }))
      else none
  | .tick id known =>
      if id ∈ env.nodes ∧ (w.procs id).ticking then
        let (p, files) := (w.procs id).tick env w.now id (w.files id) known
        some ((w.setProc id p).setFiles id files)
      else none
  | .request id requestId =>
      if (w.procs id).localState.state = .fetching then
        let (p, files) := (w.procs id).request (w.files id) requestId
        some ((w.setProc id p).setFiles id files)
      else none

/-- All processes have just started. -/
def World.init (commit : String → String) (files : String → Files) (now : ℕ) : World :=
  ⟨now, fun id => .start (commit id) 0 now, files, [], [], []⟩

/-! ### The result -/

namespace World
variable (w : World)

/-- A process has had no word of a peer for the skip time. -/
def Unreachable (id peerId : String) : Prop :=
  (w.procs id).bootAt + env.skipOfflineMs ≤ w.now ∧
    ∀ t, (id, peerId, t) ∈ w.contacts → t + env.skipOfflineMs ≤ w.now

/-- Each self-updating node before the node has told it that it runs the target, or has been out of
reach for the skip time. -/
def Legitimate (id : String) : Prop :=
  ∀ peerId, [peerId, id].Sublist (rolloutOrder env.sha256 env.target env.nodes) →
    env.managed peerId = true → (id, peerId) ∈ w.reported ∨ w.Unreachable env id peerId

/-- The process knows of each self-updating node before its own that an updater looks after it, or
that it runs the target, or takes it to be offline for the skip time. -/
def Informed (id : String) : Prop :=
  ∀ peerId, [peerId, id].Sublist (rolloutOrder env.sha256 env.target env.nodes) →
    env.managed peerId = true →
      let p := w.procs id
      let node := p.peerNode env w.now peerId
      node.selfUpdating = true ∨ node.commit = env.target ∨
        (node.online = false ∧ env.skipOfflineMs ≤ node.offlineForMs)

end World

/-! ### What a process does to its own picture -/

variable {env} {now : ℕ} {id : String} {files : Files} {p q : Process}

/-- The picture of the others, and when it began, are the same. -/
def Process.SamePicture (p q : Process) : Prop :=
  q.bootAt = p.bootAt ∧ q.startedAt = p.startedAt ∧ q.peers = p.peers

theorem Process.SamePicture.trans {r : Process} (h : p.SamePicture q) (h' : q.SamePicture r) :
    p.SamePicture r :=
  ⟨h'.1.trans h.1, h'.2.1.trans h.2.1, h'.2.2.trans h.2.2⟩

theorem followUpdater_samePicture : p.SamePicture (p.followUpdater files).1 := by
  unfold Process.followUpdater
  split
  · exact ⟨rfl, rfl, rfl⟩
  · extract_lets terminal found known reported next
    split_ifs <;> exact ⟨rfl, rfl, rfl⟩

theorem silentUpdater_samePicture : p.SamePicture (p.silentUpdater env now id files).1 := by
  simp only [Process.silentUpdater]
  split_ifs <;> exact ⟨rfl, rfl, rfl⟩

theorem newTarget_samePicture (target : Option String) : p.SamePicture (p.newTarget target) := by
  simp only [Process.newTarget]
  split_ifs <;> exact ⟨rfl, rfl, rfl⟩

theorem beforeDecision_samePicture (known : Bool) :
    p.SamePicture (p.beforeDecision env now id files known).1 := by
  simp only [Process.beforeDecision]
  refine .trans ?_ (silentUpdater_samePicture.trans (newTarget_samePicture _))
  split
  · exact followUpdater_samePicture
  · exact ⟨rfl, rfl, rfl⟩

theorem tick_samePicture (known : Bool) : p.SamePicture (p.tick env now id files known).1 := by
  have h := @beforeDecision_samePicture env now id files p known
  simp only [Process.tick]
  split_ifs
  · exact ⟨h.1, h.2.1, h.2.2⟩
  · exact h

theorem Process.SamePicture.peerNode (h : p.SamePicture q) (peerId : String) :
    q.peerNode env now peerId = p.peerNode env now peerId := by
  simp only [Process.peerNode, Process.peerOfflineFor, h.2.1, h.2.2]

/-! ### Who is passed over at a start -/

theorem map_id_rolloutNodes (hid : id ∈ env.nodes) :
    ((p.rolloutNodes env now id files).map RolloutNode.id).Perm env.nodes := by
  have hmap : (p.rolloutNodes env now id files).map RolloutNode.id =
      id :: env.nodes.filter (· ≠ id) := by
    simp only [Process.rolloutNodes, List.map_cons, List.map_map]
    congr 1
    exact List.map_id' _
  have herase : env.nodes.filter (· ≠ id) = env.nodes.erase id := by
    rw [env.nodup.erase_eq_filter]
    exact List.filter_congr fun peerId _ => by by_cases h : peerId = id <;> simp [h]
  rw [hmap, herase]
  exact (List.perm_cons_erase hid).symm

/-- Where a node stands in the order: whoever precedes it is in the list before it. -/
theorem mem_of_sublist_pair {α : Type*} {a b : α} {pre post : List α}
    (hn : (pre ++ b :: post).Nodup) (h : [a, b].Sublist (pre ++ b :: post)) : a ∈ pre := by
  obtain ⟨-, hn', hdisj⟩ := List.nodup_append'.mp hn
  have hpost : b ∉ post := (List.nodup_cons.mp hn').1
  have hpre : b ∉ pre := fun hb => hdisj hb List.mem_cons_self
  obtain ⟨l₁, l₂, hl, h₁, h₂⟩ := List.sublist_append_iff.mp h
  rcases l₁ with - | ⟨c, l₁⟩
  · rw [List.nil_append] at hl
    subst hl
    cases h₂ with
    | cons _ h₂ => exact absurd (h₂.subset (by simp)) hpost
    | cons_cons _ h₂ => exact absurd (h₂.subset (by simp)) hpost
  · obtain ⟨rfl, -⟩ := List.cons.inj hl
    exact h₁.subset List.mem_cons_self

/-- **A node that starts has passed over every node before it.** -/
theorem passedOver_of_starts (hid : id ∈ env.nodes) {known : Bool}
    (h : p.starts env now id files known = true) {peerId : String}
    (hbefore : [peerId, id].Sublist (rolloutOrder env.sha256 env.target env.nodes)) :
    (p.peerNode env now peerId).passedOver env.target env.skipOfflineMs = true := by
  have hsame := @beforeDecision_samePicture env now id files p known
  simp only [Process.starts] at h
  generalize p.beforeDecision env now id files known = r at h hsame
  obtain ⟨q, files'⟩ := r
  simp only [Bool.and_eq_true, decide_eq_true_eq] at h
  have hperm := @map_id_rolloutNodes env now id files' q hid
  have hn := hperm.nodup_iff.mpr env.nodup
  have hself : q.selfNode env now id files' ∈ q.rolloutNodes env now id files' := List.mem_cons_self
  obtain ⟨-, hfirst⟩ := (update_iff hn hself rfl).mp h.1.1.2
  obtain ⟨-, pre, post, hsplit, hall⟩ := List.find?_eq_some_iff_append.mp hfirst
  have horder : rolloutOrder env.sha256 env.target env.nodes =
      pre.map RolloutNode.id ++ id :: post.map RolloutNode.id := by
    have hids : (distinct ((q.rolloutNodes env now id files').map RolloutNode.id)).Perm env.nodes :=
      (List.perm_ext_iff_of_nodup (nodup_distinct _) env.nodup).mpr fun a => by
        rw [mem_distinct, hperm.mem_iff]
    rw [← rolloutOrder_perm hids, ← map_id_orderedNodes hn, hsplit, List.map_append, List.map_cons]
    rfl
  have hnodup : (rolloutOrder env.sha256 env.target env.nodes).Nodup :=
    (List.perm_insertionSort _ _).nodup_iff.mpr env.nodup
  rw [horder] at hbefore hnodup
  have hmem := mem_of_sublist_pair hnodup hbefore
  have hne : peerId ≠ id := by
    rintro rfl
    exact List.disjoint_of_nodup_append hnodup hmem List.mem_cons_self
  obtain ⟨node, hnode, rfl⟩ := List.mem_map.mp hmem
  have hin : node ∈ q.rolloutNodes env now id files' :=
    (@mem_orderedNodes env.sha256 env.target _ hn _).mp (by simp [hsplit, hnode])
  rcases List.mem_cons.mp hin with rfl | hin
  · exact absurd rfl hne
  · obtain ⟨peerId, -, rfl⟩ := List.mem_map.mp hin
    rw [← hsame.peerNode]
    have hpassed := hall _ hnode
    rwa [Bool.not_not] at hpassed

/-! ### What a process knows is what it was told -/

/-- What a process knows of the others goes back to what it heard since it began. -/
structure Process.Sound (env : Deployment) (w : World) (id : String) (p : Process) : Prop where
  boot : p.bootAt ≤ p.startedAt ∧ p.startedAt ≤ w.now
  seen : ∀ peerId t, (p.peers peerId).lastSeenAt = some t → p.bootAt ≤ t ∧ t ≤ w.now
  contact : ∀ peerId t, (id, peerId, t) ∈ w.contacts →
    t ≤ p.bootAt ∨ ∃ t', (p.peers peerId).lastSeenAt = some t' ∧ t ≤ t'
  told : ∀ peerId update, (p.peers peerId).update = some update →
    update.commit = some env.target → (id, peerId) ∈ w.reported

structure World.Sound (env : Deployment) (w : World) : Prop where
  past : ∀ c ∈ w.contacts, c.2.2 ≤ w.now
  procs : ∀ id, (w.procs id).Sound env w id

variable {w w' : World}

theorem Process.SamePicture.sound (h : p.SamePicture q) (hs : p.Sound env w id) : q.Sound env w id :=
  ⟨by rw [h.1, h.2.1]; exact hs.boot, by rw [h.1, h.2.2]; exact hs.seen,
    by rw [h.1, h.2.2]; exact hs.contact, by rw [h.2.2]; exact hs.told⟩

theorem World.Sound.setProc (hw : w.Sound env) (h : q.Sound env w id) :
    (w.setProc id q).Sound env := by
  refine ⟨hw.past, fun id' => ?_⟩
  rcases eq_or_ne id' id with rfl | hne
  · have hq : (w.setProc id' q).procs id' = q := Function.update_self ..
    rw [hq]
    exact ⟨h.boot, h.seen, h.contact, h.told⟩
  · have hq : (w.setProc id q).procs id' = w.procs id' := Function.update_of_ne hne ..
    rw [hq]
    exact ⟨(hw.procs id').boot, (hw.procs id').seen, (hw.procs id').contact, (hw.procs id').told⟩

/-- A change to what is known of a peer that leaves its reports and their time alone. -/
theorem Process.Sound.setPeer {peerId : String} {peer : PeerView} (hs : p.Sound env w id)
    (hseen : peer.lastSeenAt = (p.peers peerId).lastSeenAt)
    (hupdate : peer.update = (p.peers peerId).update) : (p.setPeer peerId peer).Sound env w id := by
  have hpeer : ∀ y, ((p.setPeer peerId peer).peers y).lastSeenAt = (p.peers y).lastSeenAt ∧
      ((p.setPeer peerId peer).peers y).update = (p.peers y).update := by
    intro y
    rcases eq_or_ne y peerId with rfl | hne
    · simp [Process.setPeer, hseen, hupdate]
    · simp [Process.setPeer, hne]
  exact ⟨hs.boot, fun y t h => hs.seen y t ((hpeer y).1 ▸ h),
    fun y t h => (hs.contact y t h).imp_right fun ⟨t', ht, hle⟩ => ⟨t', (hpeer y).1.trans ht, hle⟩,
    fun y update h => hs.told y update ((hpeer y).2 ▸ h)⟩

theorem World.Sound.hear {peerId : String} {update : UpdateAdvert} {change : PeerView → PeerView}
    (hw : w.Sound env) (hseen : ∀ peer, (change peer).lastSeenAt = peer.lastSeenAt)
    (hupdate : ∀ peer, (change peer).update = peer.update) :
    (w.hear env id peerId update change).Sound env := by
  have hkeep : ∀ c ∈ w.reported, c ∈ (w.hear env id peerId update change).reported := by
    intro c hc
    simp only [World.hear]
    split
    · exact List.mem_cons_of_mem _ hc
    · exact hc
  refine ⟨?_, fun id' => ?_⟩
  · intro c hc
    rcases List.mem_cons.mp hc with rfl | hc
    · exact le_rfl
    · exact hw.past c hc
  have hs := hw.procs id'
  rcases eq_or_ne id' id with rfl | hid
  · have hq : (w.hear env id' peerId update change).procs id' = (w.procs id').setPeer peerId
        (change ({ (w.procs id').peers peerId with lastSeenAt := some w.now }.absorb
          (env.name peerId) update)) := Function.update_self ..
    rw [hq]
    have hother : ∀ y, y ≠ peerId → ((w.procs id').setPeer peerId
        (change ({ (w.procs id').peers peerId with lastSeenAt := some w.now }.absorb
          (env.name peerId) update))).peers y = (w.procs id').peers y :=
      fun y hy => Function.update_of_ne hy ..
    have hself : ((w.procs id').setPeer peerId
        (change ({ (w.procs id').peers peerId with lastSeenAt := some w.now }.absorb
          (env.name peerId) update))).peers peerId = _ := Function.update_self ..
    refine ⟨hs.boot, fun y t h => ?_, fun y t h => ?_, fun y u hu ht => ?_⟩
    · rcases eq_or_ne y peerId with rfl | hy
      · rw [hself, hseen] at h
        cases h
        exact ⟨hs.boot.1.trans hs.boot.2, le_rfl⟩
      · rw [hother y hy] at h
        exact hs.seen y t h
    · rcases eq_or_ne y peerId with rfl | hy
      · refine .inr ⟨w.now, by rw [hself, hseen]; rfl, ?_⟩
        rcases List.mem_cons.mp h with h | h
        · cases h
          exact le_rfl
        · exact hw.past _ h
      · rw [hother y hy]
        refine hs.contact y t ((List.mem_cons.mp h).resolve_left ?_)
        rintro ⟨⟩
        exact hy rfl
    · rcases eq_or_ne y peerId with rfl | hy
      · rw [hself, hupdate] at hu
        cases hu
        simp only [World.hear, if_pos ht]
        exact List.mem_cons_self
      · rw [hother y hy] at hu
        exact hkeep _ (hs.told y u hu ht)
  · have hq : (w.hear env id peerId update change).procs id' = w.procs id' :=
      Function.update_of_ne hid ..
    rw [hq]
    refine ⟨hs.boot, hs.seen, fun y t h => ?_, fun y u hu ht => hkeep _ (hs.told y u hu ht)⟩
    refine hs.contact y t ((List.mem_cons.mp h).resolve_left ?_)
    rintro ⟨⟩
    exact hid rfl

theorem World.Sound.congr (hw : w.Sound env) (hnow : w'.now = w.now) (hprocs : w'.procs = w.procs)
    (hcontacts : w'.contacts = w.contacts) (hreported : w'.reported = w.reported) :
    w'.Sound env :=
  ⟨by rw [hcontacts, hnow]; exact hw.past, fun id =>
    ⟨by rw [hprocs, hnow]; exact (hw.procs id).boot, by rw [hprocs, hnow]; exact (hw.procs id).seen,
      by rw [hprocs, hcontacts]; exact (hw.procs id).contact,
      by rw [hprocs, hreported]; exact (hw.procs id).told⟩⟩

theorem Process.Sound.start (commit : String) (life : ℕ) (hw : w.Sound env) :
    (Process.start commit life w.now).Sound env w id :=
  ⟨⟨le_rfl, le_rfl⟩, nofun, fun _ _ h => .inl (hw.past _ h), nofun⟩

theorem Process.Sound.startUpdates (hs : p.Sound env w id) :
    (p.startUpdates env w.now id files).Sound env w id := by
  simp only [Process.startUpdates]
  split
  · exact hs
  · exact ⟨⟨hs.boot.1.trans hs.boot.2, le_rfl⟩, hs.seen, hs.contact, hs.told⟩

theorem step_sound {e : Event} (hw : w.Sound env) (h : step env w e = some w') : w'.Sound env := by
  cases e with
  | pass ms =>
      cases h
      refine ⟨fun c hc => (hw.past c hc).trans (Nat.le_add_right ..), fun id => ?_⟩
      have hs := hw.procs id
      exact ⟨⟨hs.boot.1, hs.boot.2.trans (Nat.le_add_right ..)⟩,
        fun y t ht => ⟨(hs.seen y t ht).1, (hs.seen y t ht).2.trans (Nat.le_add_right ..)⟩,
        hs.contact, hs.told⟩
  | files id files =>
      cases h
      exact hw.congr rfl rfl rfl rfl
  | restart id commit =>
      cases h
      exact hw.setProc (.start commit _ hw)
  | startUpdates id =>
      cases h
      exact hw.setProc (hw.procs id).startUpdates
  | heartbeat id peerId =>
      simp only [step, Option.ite_none_right_eq_some] at h
      obtain ⟨-, ⟨⟩⟩ := h
      refine (hw.setProc ?_).congr rfl rfl rfl rfl
      exact (hw.procs id).setPeer rfl rfl
  | deliver message =>
      simp only [step, Option.ite_none_right_eq_some] at h
      obtain ⟨-, h⟩ := h
      have hw₁ : { w with network := w.network.erase message }.Sound env := hw.congr rfl rfl rfl rfl
      split at h
      · split at h
        · cases h
          exact hw₁.hear (fun _ => rfl) fun _ => rfl
        · cases h
          exact hw₁
      · cases h
        exact (@World.Sound.hear env _ _ _ _ id hw₁ (fun _ => rfl) fun _ => rfl).congr rfl rfl rfl rfl
  | fail id peerId =>
      simp only [step, Option.ite_none_right_eq_some] at h
      obtain ⟨-, ⟨⟩⟩ := h
      exact hw.setProc ((hw.procs id).setPeer rfl rfl)
  | tick id known =>
      simp only [step, Option.ite_none_right_eq_some] at h
      obtain ⟨-, ⟨⟩⟩ := h
      exact (hw.setProc ((tick_samePicture known).sound (hw.procs id))).congr rfl rfl rfl rfl
  | request id requestId =>
      simp only [step, Option.ite_none_right_eq_some] at h
      obtain ⟨-, ⟨⟩⟩ := h
      have hsame : (w.procs id).SamePicture ((w.procs id).request (w.files id) requestId).1 :=
        ⟨rfl, rfl, rfl⟩
      exact (hw.setProc (hsame.sound (hw.procs id))).congr rfl rfl rfl rfl

theorem init_sound (commit : String → String) (files : String → Files) (now : ℕ) :
    (World.init commit files now).Sound env :=
  ⟨nofun, fun _ => ⟨⟨le_rfl, le_rfl⟩, nofun, nofun, nofun⟩⟩

/-! ### No overtaking -/

/-- A start whose node was informed is legitimate. -/
theorem legitimate_of_starts (hw : w.Sound env) (hid : id ∈ env.nodes) {known : Bool}
    (hinformed : w.Informed env id)
    (h : (w.procs id).starts env w.now id (w.files id) known = true) : w.Legitimate env id := by
  intro peerId hbefore hmanaged
  have hs := hw.procs id
  have hpassed := passedOver_of_starts hid h hbefore
  have hinf := hinformed peerId hbefore hmanaged
  have htold : ((w.procs id).peerNode env w.now peerId).commit = env.target →
      (id, peerId) ∈ w.reported := by
    intro hc
    simp only [Process.peerNode] at hc
    cases hu : ((w.procs id).peers peerId).update with
    | none =>
        rw [hu] at hc
        exact absurd hc.symm env.target_ne
    | some update =>
        rw [hu] at hc
        refine hs.told peerId update hu ?_
        cases hcommit : update.commit with
        | none =>
            simp only [Option.bind_some, hcommit, Option.getD_none] at hc
            exact absurd hc.symm env.target_ne
        | some commit => simpa [hcommit] using hc
  have hgone : ((w.procs id).peerNode env w.now peerId).online = false →
      env.skipOfflineMs ≤ ((w.procs id).peerNode env w.now peerId).offlineForMs →
      w.Unreachable env id peerId := by
    intro ho hskip
    have hoffline : ((w.procs id).peers peerId).health ≠ .online := by
      simpa [Process.peerNode] using ho
    simp only [Process.peerNode, Process.peerOfflineFor, if_neg hoffline] at hskip
    have hboot := hs.boot
    cases hl : ((w.procs id).peers peerId).lastSeenAt with
    | none =>
        rw [hl, Option.getD_none] at hskip
        refine ⟨by omega, fun t ht => ?_⟩
        rcases hs.contact peerId t ht with hle | ⟨t', ht', -⟩
        · omega
        · rw [hl] at ht'
          cases ht'
    | some seen =>
        rw [hl, Option.getD_some] at hskip
        obtain ⟨hbs, hsn⟩ := hs.seen peerId seen hl
        refine ⟨by omega, fun t ht => ?_⟩
        rcases hs.contact peerId t ht with hle | ⟨t', ht', hle⟩
        · omega
        · rw [hl] at ht'
          cases ht'
          omega
  simp only [RolloutNode.passedOver, Bool.or_eq_true, Bool.and_eq_true, Bool.not_eq_true',
    decide_eq_true_eq] at hpassed
  rcases hpassed with (hc | hself) | ⟨-, ho, hskip⟩
  · exact .inl (htold hc)
  · rcases hinf with hself' | hc | ⟨ho, hskip⟩
    · rw [hself] at hself'
      cases hself'
    · exact .inl (htold hc)
    · exact .inr (hgone ho hskip)
  · exact .inr (hgone ho hskip)

/-- **No node overtakes another.**  In a run whose nodes know better at each tick, a node starts its
update only after each self-updating node before it has reported the target or has been out of reach
for the skip time. -/
theorem no_overtaking {commit : String → String} {files : String → Files} {start : ℕ}
    {events : List Event}
    (hmeets : Meets (step env) (fun w e => ∀ id known, e = .tick id known → w.Informed env id)
      (.init commit files start) events) :
    ∀ pre id known post, events = pre ++ .tick id known :: post →
      ∀ w w', run (step env) (.init commit files start) pre = some w →
        step env w (.tick id known) = some w' →
        (w.procs id).starts env w.now id (w.files id) known = true → w.Legitimate env id := by
  rintro pre id known post rfl w w' hrun hstep hstart
  have hw : w.Sound env :=
    run_invariant (fun _ _ _ hw h => step_sound hw h) (init_sound commit files start) hrun
  have hinformed := hmeets.at_split hrun id known rfl
  simp only [step, Option.ite_none_right_eq_some] at hstep
  exact legitimate_of_starts hw hstep.1.1 hinformed hstart

section
theorem twoNodes_nodup : ["node-one", "node-two"].Nodup := by
  decide

/-- Two nodes with an updater each; `node-two` comes first. -/
def twoNodes : Deployment where
  sha256 := digest
  target := "0123456789abcdef0123456789abcdef01234567"
  skipOfflineMs := 600000
  thresholds := ⟨2, 4⟩
  nodes := ["node-one", "node-two"]
  name := fun id => id
  updateDir := fun _ => true
  color := fun _ => true
  nodup := twoNodes_nodup
  target_ne := by decide

theorem rolloutOrder_twoNodes :
    rolloutOrder digest twoNodes.target twoNodes.nodes = ["node-two", "node-one"] := by
  decide +kernel

/-- The updaters have just written their heartbeats. -/
def freshFiles : Files := ⟨some 0, none, none, none⟩

/-- `node-two` is on the given commit, `node-one` on an older one. -/
def twoNodesStart (commit : String) : World :=
  .init (fun id => if id = "node-two" then commit else "76543210fedcba9876543210fedcba9876543210")
    (fun _ => freshFiles) 0

/-- `node-two` runs the target, and says so before `node-one` ticks. -/
def heardRun : List Event :=
  [.startUpdates "node-one", .heartbeat "node-one" "node-two",
    .deliver ⟨false, "node-one", "node-two", 0,
      ⟨some "76543210fedcba9876543210fedcba9876543210", true, .idle, none, none⟩⟩,
    .deliver ⟨true, "node-two", "node-one", 0, ⟨some twoNodes.target, true, .idle, none, none⟩⟩]

theorem meets_heardRun (known : Bool) : Meets (step twoNodes)
    (fun w e => ∀ id known, e = .tick id known → w.Informed twoNodes id)
    (twoNodesStart twoNodes.target) (heardRun ++ [.tick "node-one" known]) := by
  refine .cons nofun rfl (.cons nofun rfl (.cons nofun rfl (.cons nofun rfl ⟨?_, fun _ _ => trivial⟩)))
  rintro id known' ⟨⟩ peerId hbefore -
  rw [show twoNodes.sha256 = digest from rfl, rolloutOrder_twoNodes] at hbefore
  obtain rfl : peerId = "node-two" :=
    List.mem_singleton.mp (@mem_of_sublist_pair _ _ _ ["node-two"] [] (by decide) hbefore)
  exact .inr (.inl (by decide +kernel))

theorem no_overtaking_heardRun :
    ∃ w, run (step twoNodes) (twoNodesStart twoNodes.target) heardRun = some w ∧
      w.Legitimate twoNodes "node-one" :=
  ⟨_, rfl, no_overtaking (meets_heardRun true) heardRun "node-one" true [] rfl _ _ rfl rfl
    (by decide +kernel)⟩

/-- Nothing is heard of `node-two` before `node-one` ticks. -/
def unheardRun : List Event := [.startUpdates "node-one", .pass 10000]

/-- A node that has just started overtakes the one it has not heard of. -/
theorem overtaking_unheard :
    ∃ w w', run (step twoNodes) (twoNodesStart "76543210fedcba9876543210fedcba9876543210") unheardRun =
        some w ∧ step twoNodes w (.tick "node-one" true) = some w' ∧
      (w.procs "node-one").starts twoNodes w.now "node-one" (w.files "node-one") true = true ∧
      ¬ w.Legitimate twoNodes "node-one" := by
  refine ⟨_, _, rfl, rfl, by decide +kernel, fun h => ?_⟩
  rcases h "node-two" (by rw [show twoNodes.sha256 = digest from rfl, rolloutOrder_twoNodes]) rfl with
    h | ⟨h, -⟩
  · cases h
  · exact absurd h (by decide +kernel)

end

end Pokyh.Cluster.Updates

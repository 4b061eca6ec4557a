import Mathlib.Data.List.Induction
import Mathlib.Data.List.Sort
import Mathlib.Data.Prod.Lex
import Mathlib.Data.String.Basic
import Pokyh.Lib.Groups

/-!
# Cluster — Rollout

In which order the nodes update, and what a node does about a target commit given what it knows of
every node (`rollout.ts`).  The hash that ranks the nodes is a parameter.

A node is *passed over* if it runs the target, is not updated by Pokyh or has been offline for long;
the first node in the order that is not passed over holds up the others (`blocking_eq`), and a
node that regards itself as online updates exactly if it is that node and ready (`update_iff`).

* `decideRollout_perm`: the order the nodes are listed in does not matter.
* `decideRollout_stops_iff`: one node updates at a time, and a failed node stops those after it
  except where it is taken for one that Pokyh does not update.
-/

namespace Pokyh.Cluster
open Pokyh.Lib

structure RolloutNode where
  id : String
  name : String
  commit : String
  /-- Updated by Pokyh's updater. -/
  selfUpdating : Bool
  online : Bool
  offlineForMs : ℕ
  /-- The commit this node failed to update to, if any. -/
  failed : Option String
  updating : Bool
  deriving DecidableEq, Repr

inductive NodeRolloutState where
  | done | updating | failed | manual | skipped | waiting | next
  deriving DecidableEq, Repr

inductive RolloutAction where
  | none | update | wait | blocked | manual | failed
  deriving DecidableEq, Repr

structure RolloutEntry where
  id : String
  name : String
  state : NodeRolloutState
  deriving DecidableEq, Repr

structure RolloutDecision where
  action : RolloutAction
  reason : String
  order : List RolloutEntry
  deriving DecidableEq, Repr

inductive BlockingKind where
  | failed | wait
  deriving DecidableEq, Repr

structure Blocking where
  kind : BlockingKind
  node : RolloutNode
  deriving DecidableEq, Repr

section
variable (sha256 : String → String) (target : String)

/-- Where a node stands in the order for a target: by its rank, and by its id between equal ranks. -/
def rolloutKey (id : String) : String ×ₗ String := toLex (sha256 (target ++ ":" ++ id), id)

def rolloutOrder (ids : List String) : List String :=
  ids.insertionSort fun a b => rolloutKey sha256 target a ≤ rolloutKey sha256 target b

/-- The nodes by their id; of two entries with one id the later counts. -/
def nodesById (nodes : List RolloutNode) : String → Option RolloutNode :=
  mapOf (nodes.map fun node => (node.id, node))

/-- The nodes in the order of the rollout. -/
def orderedNodes (nodes : List RolloutNode) : List RolloutNode :=
  (rolloutOrder sha256 target (distinct (nodes.map RolloutNode.id))).filterMap (nodesById nodes)

end

section
variable (target : String) (skipOfflineMs : ℕ)

def nodeState (blocked : Bool) (node : RolloutNode) : NodeRolloutState :=
  if node.commit = target then .done
  else if !node.selfUpdating then .manual
  else if node.failed = some target then .failed
  else if node.updating then .updating
  else if !node.online && node.offlineForMs ≥ skipOfflineMs then .skipped
  else if blocked then .waiting
  else .next

/-- One pass of the loop: the states so far, and the node that holds up the others. -/
def rolloutStep (acc : List (RolloutNode × NodeRolloutState) × Option Blocking) (node : RolloutNode) :
    List (RolloutNode × NodeRolloutState) × Option Blocking :=
  let state := nodeState target skipOfflineMs acc.2.isSome node
  (acc.1 ++ [(node, state)],
    match acc.2 with
    | some blocking => some blocking
    | none =>
        if state = .failed then some ⟨.failed, node⟩
        else if state = .updating ∨ state = .next then some ⟨.wait, node⟩
        else none)

def rolloutStates (ordered : List RolloutNode) :
    List (RolloutNode × NodeRolloutState) × Option Blocking :=
  ordered.foldl (rolloutStep target skipOfflineMs) ([], none)

end

def RolloutNode.label (node : RolloutNode) : String :=
  if node.name = "" then String.ofList (node.id.toList.take 8) else node.name

def decideRollout (sha256 : String → String) (target selfId : String) (nodes : List RolloutNode)
    (skipOfflineMs : ℕ) : RolloutDecision :=
  let (states, blocking) := rolloutStates target skipOfflineMs (orderedNodes sha256 target nodes)
  let list := states.map fun s => (⟨s.1.id, s.1.name, s.2⟩ : RolloutEntry)
  match states.find? fun s => s.1.id = selfId with
  | none => ⟨.none, "this node is not part of the rollout", list⟩
  | some (self, own) =>
      if own = .done then ⟨.none, "this node runs the newest version", list⟩
      else if own = .manual then
        ⟨.manual, "this node is not updated by Pokyh — deploy the new version where it runs", list⟩
      else if own = .failed then
        ⟨.failed, "the update failed on this node; the rollout waits for an administrator", list⟩
      else if own = .updating then ⟨.none, "this node is updating", list⟩
      else
        match blocking with
        | some ⟨kind, node⟩ =>
            if node.id = self.id then ⟨.update, "this node is next", list⟩
            else
              match kind with
              | .failed =>
                  ⟨.blocked, "the update failed on " ++ node.label ++ "; the rollout stopped there", list⟩
              | .wait => ⟨.wait, "waiting for " ++ node.label, list⟩
        | none => ⟨.update, "this node is next", list⟩

/-! ### What the loop finds -/

namespace RolloutNode

/-- The rollout goes on past the node. -/
def passedOver (target : String) (skipOfflineMs : ℕ) (node : RolloutNode) : Bool :=
  node.commit = target || !node.selfUpdating ||
    (node.failed ≠ some target && !node.updating && (!node.online && node.offlineForMs ≥ skipOfflineMs))

/-- The node has yet to update, and nothing on it stands in the way. -/
def ready (target : String) (skipOfflineMs : ℕ) (node : RolloutNode) : Bool :=
  node.commit ≠ target && node.selfUpdating && node.failed ≠ some target && !node.updating &&
    !(!node.online && node.offlineForMs ≥ skipOfflineMs)

/-- The node has failed to update to the target, and does not run it. -/
def hasFailed (target : String) (node : RolloutNode) : Bool :=
  node.failed = some target && node.commit ≠ target

end RolloutNode

variable {sha256 : String → String} {target : String} {skipOfflineMs : ℕ} {nodes : List RolloutNode}

theorem not_ready_of_passedOver {node : RolloutNode} (h : node.passedOver target skipOfflineMs = true) :
    node.ready target skipOfflineMs = false := by
  simp only [RolloutNode.passedOver, RolloutNode.ready, Bool.or_eq_true, Bool.and_eq_true,
    Bool.not_eq_true', decide_eq_true_eq] at h ⊢
  rcases h with (h | h) | ⟨⟨hf, hu⟩, ho, hs⟩
  · simp [h]
  · simp [h]
  · simp [ho, hs]

/-- A failed node is passed over only if it is taken for one that Pokyh does not update. -/
theorem selfUpdating_of_hasFailed {node : RolloutNode} (hf : node.hasFailed target = true)
    (h : node.passedOver target skipOfflineMs = true) : node.selfUpdating = false := by
  simp only [RolloutNode.hasFailed, RolloutNode.passedOver, Bool.or_eq_true, Bool.and_eq_true,
    Bool.not_eq_true', decide_eq_true_eq] at hf h
  rcases h with (h | h) | ⟨⟨h, -⟩, -⟩
  · exact absurd h hf.2
  · exact h
  · exact absurd hf.1 h

theorem rolloutStates_append {pre : List RolloutNode} {node : RolloutNode} :
    rolloutStates target skipOfflineMs (pre ++ [node]) =
      rolloutStep target skipOfflineMs (rolloutStates target skipOfflineMs pre) node := by
  simp [rolloutStates]

/-- **The node that holds up the others** is the first one not passed over. -/
theorem blocking_eq (ordered : List RolloutNode) :
    (rolloutStates target skipOfflineMs ordered).2.map Blocking.node =
      ordered.find? fun node => !node.passedOver target skipOfflineMs := by
  induction ordered using List.reverseRecOn with
  | nil => rfl
  | append_singleton pre node ih =>
      rw [rolloutStates_append, rolloutStep, List.find?_append, ← ih]
      cases hb : (rolloutStates target skipOfflineMs pre).2 with
      | some blocking => rfl
      | none =>
          simp only [Option.map_none, Option.none_or, Option.isSome_none, nodeState,
            RolloutNode.passedOver, List.find?_singleton]
          by_cases hc : node.commit = target
          · simp [hc]
          by_cases hs : node.selfUpdating = true
          · by_cases hf : node.failed = some target
            · simp [hc, hs, hf]
            by_cases hu : node.updating = true
            · simp [hc, hs, hf, hu]
            by_cases ho : (!node.online && decide (node.offlineForMs ≥ skipOfflineMs)) = true
            · simp [hc, hs, hf, hu, ho]
            · simp [hc, hs, hf, hu, ho]
          · simp [hc, hs]

theorem map_fst_rolloutStates (ordered : List RolloutNode) :
    (rolloutStates target skipOfflineMs ordered).1.map Prod.fst = ordered := by
  induction ordered using List.reverseRecOn with
  | nil => rfl
  | append_singleton pre node ih => rw [rolloutStates_append, rolloutStep, List.map_append, ih]; rfl

/-- Each node's state was found with some node blocking before it, or none. -/
theorem state_of_mem (ordered : List RolloutNode) :
    ∀ s ∈ (rolloutStates target skipOfflineMs ordered).1,
      ∃ blocked, s.2 = nodeState target skipOfflineMs blocked s.1 := by
  induction ordered using List.reverseRecOn with
  | nil => nofun
  | append_singleton pre node ih =>
      intro s hs
      rw [rolloutStates_append, rolloutStep, List.mem_append] at hs
      rcases hs with hs | hs
      · exact ih s hs
      · rw [List.mem_singleton.mp hs]
        exact ⟨_, rfl⟩

/-! ### The order -/

theorem rolloutKey_injective : Function.Injective (rolloutKey sha256 target) :=
  fun _ _ h => (Prod.mk.inj (toLex_inj.mp h)).2

/-- The order depends on the nodes only, not on how they are listed. -/
theorem rolloutOrder_perm {ids ids' : List String} (h : ids.Perm ids') :
    rolloutOrder sha256 target ids = rolloutOrder sha256 target ids' := by
  have : Std.Total (fun a b => rolloutKey sha256 target a ≤ rolloutKey sha256 target b) :=
    ⟨fun _ _ => le_total _ _⟩
  have : IsTrans String (fun a b => rolloutKey sha256 target a ≤ rolloutKey sha256 target b) :=
    ⟨fun _ _ _ => le_trans⟩
  have : Std.Antisymm (fun a b => rolloutKey sha256 target a ≤ rolloutKey sha256 target b) :=
    ⟨fun _ _ hab hba => rolloutKey_injective (le_antisymm hab hba)⟩
  refine List.Perm.eq_of_pairwise' (List.pairwise_insertionSort _ _)
    (List.pairwise_insertionSort _ _) ?_
  exact (List.perm_insertionSort _ _).trans (h.trans (List.perm_insertionSort _ _).symm)

theorem nodesById_perm {nodes' : List RolloutNode} (hn : (nodes.map RolloutNode.id).Nodup)
    (h : nodes.Perm nodes') : nodesById nodes = nodesById nodes' := by
  funext id
  have hn₁ : ((nodes.map fun node => (node.id, node)).map Prod.fst).Nodup := by
    simpa [List.map_map, Function.comp_def] using hn
  have hn₂ : ((nodes'.map fun node => (node.id, node)).map Prod.fst).Nodup :=
    ((h.map _).map _).nodup_iff.mp hn₁
  ext node
  rw [nodesById, nodesById, mapOf_eq_some hn₁, mapOf_eq_some hn₂, (h.map _).mem_iff]

theorem orderedNodes_perm {nodes' : List RolloutNode} (hn : (nodes.map RolloutNode.id).Nodup)
    (h : nodes.Perm nodes') : orderedNodes sha256 target nodes = orderedNodes sha256 target nodes' := by
  have hids : (distinct (nodes.map RolloutNode.id)).Perm (distinct (nodes'.map RolloutNode.id)) := by
    refine (List.perm_ext_iff_of_nodup (nodup_distinct _) (nodup_distinct _)).mpr fun id => ?_
    rw [mem_distinct, mem_distinct, (h.map _).mem_iff]
  rw [orderedNodes, orderedNodes, rolloutOrder_perm hids, nodesById_perm hn h]

/-- **The decision does not depend on the order in which the nodes are listed.** -/
theorem decideRollout_perm {nodes' : List RolloutNode} (hn : (nodes.map RolloutNode.id).Nodup)
    (h : nodes.Perm nodes') (selfId : String) :
    decideRollout sha256 target selfId nodes skipOfflineMs =
      decideRollout sha256 target selfId nodes' skipOfflineMs := by
  rw [decideRollout, orderedNodes_perm hn h, decideRollout]

theorem mem_nodesById (hn : (nodes.map RolloutNode.id).Nodup) {id : String} {node : RolloutNode} :
    nodesById nodes id = some node ↔ node ∈ nodes ∧ node.id = id := by
  have hn₁ : ((nodes.map fun node => (node.id, node)).map Prod.fst).Nodup := by
    simpa [List.map_map, Function.comp_def] using hn
  rw [nodesById, mapOf_eq_some hn₁]
  constructor
  · intro h
    obtain ⟨node', hmem, he⟩ := List.mem_map.mp h
    cases he
    exact ⟨hmem, rfl⟩
  · rintro ⟨hmem, rfl⟩
    exact List.mem_map.mpr ⟨node, hmem, rfl⟩

theorem mem_orderedNodes (hn : (nodes.map RolloutNode.id).Nodup) {node : RolloutNode} :
    node ∈ orderedNodes sha256 target nodes ↔ node ∈ nodes := by
  simp only [orderedNodes, rolloutOrder, List.mem_filterMap, List.mem_insertionSort, mem_distinct,
    mem_nodesById hn]
  constructor
  · rintro ⟨_, -, h, -⟩
    exact h
  · intro h
    exact ⟨node.id, List.mem_map_of_mem h, h, rfl⟩

theorem map_id_orderedNodes (hn : (nodes.map RolloutNode.id).Nodup) :
    (orderedNodes sha256 target nodes).map RolloutNode.id =
      rolloutOrder sha256 target (distinct (nodes.map RolloutNode.id)) := by
  rw [orderedNodes, List.map_filterMap]
  refine (List.filterMap_congr fun id hid => ?_).trans List.filterMap_some
  have hid : id ∈ nodes.map RolloutNode.id := by
    simpa [rolloutOrder, mem_distinct] using hid
  obtain ⟨node, hmem, rfl⟩ := List.mem_map.mp hid
  rw [(mem_nodesById hn).mpr ⟨hmem, rfl⟩]
  rfl

theorem orderedNodes_nodup (hn : (nodes.map RolloutNode.id).Nodup) :
    ((orderedNodes sha256 target nodes).map RolloutNode.id).Nodup := by
  rw [map_id_orderedNodes hn, rolloutOrder, (List.perm_insertionSort _ _).nodup_iff]
  exact nodup_distinct _

/-! ### Who updates -/

/-- An online node is ready exactly if nothing about itself settles what it does. -/
theorem ready_iff_nodeState {node : RolloutNode} (blocked : Bool) (ho : node.online = true) :
    node.ready target skipOfflineMs = true ↔
      nodeState target skipOfflineMs blocked node = if blocked then .waiting else .next := by
  simp only [RolloutNode.ready, nodeState, ho]
  by_cases hc : node.commit = target
  · cases blocked <;> simp [hc]
  by_cases hs : node.selfUpdating = true
  · by_cases hf : node.failed = some target
    · cases blocked <;> simp [hc, hs, hf]
    by_cases hu : node.updating = true
    · cases blocked <;> simp [hc, hs, hf, hu]
    · cases blocked <;> simp [hc, hs, hf, hu]
  · cases blocked <;> simp [hc, hs]

theorem nodeState_cases {node : RolloutNode} (blocked : Bool) (ho : node.online = true) :
    nodeState target skipOfflineMs blocked node ∈
      [.done, .manual, .failed, .updating, if blocked then .waiting else .next] := by
  simp only [nodeState, ho, Bool.not_true, Bool.false_and, Bool.false_eq_true, if_false]
  split_ifs <;> simp

theorem not_passedOver_of_ready {node : RolloutNode} (h : node.ready target skipOfflineMs = true) :
    node.passedOver target skipOfflineMs = false := by
  cases hp : node.passedOver target skipOfflineMs with
  | false => rfl
  | true => rw [not_ready_of_passedOver hp] at h; cases h

/-- **An online node updates** exactly if it is ready and holds up the others itself. -/
theorem update_iff (hn : (nodes.map RolloutNode.id).Nodup) {self : RolloutNode} (hs : self ∈ nodes)
    (ho : self.online = true) :
    (decideRollout sha256 target self.id nodes skipOfflineMs).action = .update ↔
      self.ready target skipOfflineMs = true ∧
        (orderedNodes sha256 target nodes).find? (fun node => !node.passedOver target skipOfflineMs) =
          some self := by
  set ordered := orderedNodes sha256 target nodes with hordered
  have hmem : self ∈ ordered := (mem_orderedNodes hn).mpr hs
  have hnodup : (ordered.map RolloutNode.id).Nodup := orderedNodes_nodup hn
  obtain ⟨⟨node, own⟩, hfind⟩ : ∃ s, ((rolloutStates target skipOfflineMs ordered).1.find?
      fun s => s.1.id = self.id) = some s := by
    rw [← Option.isSome_iff_exists, List.find?_isSome]
    have : self ∈ (rolloutStates target skipOfflineMs ordered).1.map Prod.fst := by
      rwa [map_fst_rolloutStates]
    obtain ⟨s, hin, rfl⟩ := List.mem_map.mp this
    exact ⟨s, hin, by simp⟩
  have hin := List.mem_of_find?_eq_some hfind
  have hnode : node = self := by
    refine List.inj_on_of_nodup_map hnodup ?_ hmem (by simpa using List.find?_some hfind)
    rw [← @map_fst_rolloutStates target skipOfflineMs ordered]
    exact List.mem_map.mpr ⟨_, hin, rfl⟩
  subst hnode
  obtain ⟨blocked, hown⟩ := state_of_mem ordered _ hin
  have hready := @ready_iff_nodeState target skipOfflineMs node blocked ho
  have hblocking := @blocking_eq target skipOfflineMs ordered
  have hcases := @nodeState_cases target skipOfflineMs node blocked ho
  simp only at hown
  rw [decideRollout, ← hordered]
  generalize rolloutStates target skipOfflineMs ordered = r at hfind hblocking ⊢
  obtain ⟨states, blocking⟩ := r
  simp only at hfind hblocking ⊢
  rw [hfind, hready, ← hown, ← hblocking]
  rw [← hown] at hcases hready
  by_cases hw : own = if blocked then NodeRolloutState.waiting else .next
  · have hlast : own ≠ .done ∧ own ≠ .manual ∧ own ≠ .failed ∧ own ≠ .updating := by
      cases blocked <;> simp [hw]
    obtain ⟨hd, hm, hf, hu⟩ := hlast
    simp only [if_neg hd, if_neg hm, if_neg hf, if_neg hu, eq_true hw, true_and]
    cases blocking with
    | none =>
        have hself := List.find?_eq_none.mp hblocking.symm node hmem
        rw [not_passedOver_of_ready (hready.mpr hw)] at hself
        exact absurd rfl hself
    | some b =>
        have hb : b.node ∈ ordered := List.mem_of_find?_eq_some hblocking.symm
        rcases b with ⟨kind, b⟩
        by_cases hid : b.id = node.id
        · have : b = node := List.inj_on_of_nodup_map hnodup hb hmem hid
          simp [this]
        · have : b ≠ node := fun h => hid (h ▸ rfl)
          cases kind <;> simp [hid, this]
  · simp only [List.mem_cons, List.not_mem_nil, or_false, hw] at hcases
    simp only [hw, false_and, iff_false]
    rcases hcases with rfl | rfl | rfl | rfl <;> simp

/-- The same, by where the node stands: all before it are passed over. -/
theorem update_iff_of_split (hn : (nodes.map RolloutNode.id).Nodup) {pre post : List RolloutNode}
    {self : RolloutNode} (h : orderedNodes sha256 target nodes = pre ++ self :: post)
    (ho : self.online = true) :
    (decideRollout sha256 target self.id nodes skipOfflineMs).action = .update ↔
      self.ready target skipOfflineMs = true ∧
        ∀ node ∈ pre, node.passedOver target skipOfflineMs = true := by
  have hs : self ∈ nodes := (@mem_orderedNodes sha256 target _ hn _).mp (by simp [h])
  have hnodup : (pre ++ self :: post).Nodup := h ▸ (orderedNodes_nodup hn).of_map _
  rw [update_iff hn hs ho, h, List.find?_append]
  refine and_congr_right fun hr => ?_
  have hself : (self :: post).find? (fun node => !node.passedOver target skipOfflineMs) = some self := by
    simp [not_passedOver_of_ready hr]
  rw [hself]
  constructor
  · intro hf node hmem
    cases hp : pre.find? fun node => !node.passedOver target skipOfflineMs with
    | none => simpa using List.find?_eq_none.mp hp node hmem
    | some b =>
        rw [hp, Option.some_or] at hf
        cases hf
        exact absurd (List.mem_of_find?_eq_some hp)
          fun hin => List.disjoint_of_nodup_append hnodup hin List.mem_cons_self
  · intro hall
    have : pre.find? (fun node => !node.passedOver target skipOfflineMs) = none :=
      List.find?_eq_none.mpr fun node hmem => by simp [hall node hmem]
    rw [this, Option.none_or]

/-- What the rollout promises for one view of the nodes. -/
structure StopsAtFailure (sha256 : String → String) (target : String) (skipOfflineMs : ℕ)
    (nodes : List RolloutNode) : Prop where
  /-- Of the nodes that regard themselves as online, at most one updates. -/
  oneAtATime : ∀ x ∈ nodes, ∀ y ∈ nodes, x.online = true → y.online = true →
    (decideRollout sha256 target x.id nodes skipOfflineMs).action = .update →
    (decideRollout sha256 target y.id nodes skipOfflineMs).action = .update → x = y
  /-- It does not matter how the nodes are listed. -/
  anyListing : ∀ nodes' : List RolloutNode, nodes.Perm nodes' → ∀ selfId,
    decideRollout sha256 target selfId nodes skipOfflineMs =
      decideRollout sha256 target selfId nodes' skipOfflineMs
  /-- No node after a failed one updates. -/
  stopped : ∀ pre x post, orderedNodes sha256 target nodes = pre ++ x :: post → x.online = true →
    (∃ y ∈ pre, y.hasFailed target = true) →
    (decideRollout sha256 target x.id nodes skipOfflineMs).action ≠ .update

/-- A failed node that Pokyh does not update never stands alone before a node that is ready. -/
def FailuresSeen (sha256 : String → String) (target : String) (skipOfflineMs : ℕ)
    (nodes : List RolloutNode) : Prop :=
  ∀ pre x post, orderedNodes sha256 target nodes = pre ++ x :: post → x.online = true →
    x.ready target skipOfflineMs = true →
    (∃ y ∈ pre, y.hasFailed target = true ∧ y.selfUpdating = false) →
    ∃ z ∈ pre, z.passedOver target skipOfflineMs = false

/-- At most one node updates at a time. -/
theorem update_unique (hn : (nodes.map RolloutNode.id).Nodup) {x y : RolloutNode} (hx : x ∈ nodes)
    (hy : y ∈ nodes) (hxo : x.online = true) (hyo : y.online = true)
    (hxu : (decideRollout sha256 target x.id nodes skipOfflineMs).action = .update)
    (hyu : (decideRollout sha256 target y.id nodes skipOfflineMs).action = .update) : x = y := by
  have hx := ((update_iff hn hx hxo).mp hxu).2
  have hy := ((update_iff hn hy hyo).mp hyu).2
  rw [hx] at hy
  exact Option.some.inj hy

/-- **A failed node stops the rollout** and nodes update one at a time, exactly if no failed node is
taken for one that Pokyh does not update and so passed over. -/
theorem decideRollout_stops_iff (hn : (nodes.map RolloutNode.id).Nodup) :
    StopsAtFailure sha256 target skipOfflineMs nodes ↔
      FailuresSeen sha256 target skipOfflineMs nodes := by
  constructor
  · intro h pre x post hsplit ho hr hfailed
    obtain ⟨y, hy, hyf, -⟩ := hfailed
    by_contra hnone
    push Not at hnone
    refine h.stopped pre x post hsplit ho ⟨y, hy, hyf⟩ ((update_iff_of_split hn hsplit ho).mpr ?_)
    exact ⟨hr, fun z hz => by simpa using hnone z hz⟩
  · intro h
    refine ⟨fun x hx y hy hxo hyo => update_unique hn hx hy hxo hyo,
      fun nodes' hperm selfId => decideRollout_perm hn hperm selfId, ?_⟩
    intro pre x post hsplit ho hfailed hu
    obtain ⟨hr, hall⟩ := (update_iff_of_split hn hsplit ho).mp hu
    obtain ⟨y, hy, hyf⟩ := hfailed
    have hys := selfUpdating_of_hasFailed hyf (hall y hy)
    obtain ⟨z, hz, hzp⟩ := h pre x post hsplit ho hr ⟨y, hy, hyf, hys⟩
    rw [hall z hz] at hzp
    cases hzp

section
/-- SHA-256 at the two nodes below. -/
def digest (text : String) : String :=
  if text = "0123456789abcdef0123456789abcdef01234567:node-two" then
    "7bcbe198138ea780091acf1d4bfaa160f6318787583c9ef0e3cc7986bcc1a7b7"
  else "8b58f3bfab8160360c6eaa2d7ed9c46cc0c68bc74b25c78d6420d7c8c3662584"

/-- Two nodes on an older commit; the update has failed on the one that comes first. -/
def failedFirst (selfUpdating : Bool) : List RolloutNode :=
  [⟨"node-one", "one", "76543210fedcba9876543210fedcba9876543210", true, true, 0, none, false⟩,
    ⟨"node-two", "two", "76543210fedcba9876543210fedcba9876543210", selfUpdating, true, 0,
      some "0123456789abcdef0123456789abcdef01234567", false⟩]

theorem decideRollout_stops_failedFirst :
    StopsAtFailure digest "0123456789abcdef0123456789abcdef01234567" 600000 (failedFirst true) ↔
      FailuresSeen digest "0123456789abcdef0123456789abcdef01234567" 600000 (failedFirst true) :=
  decideRollout_stops_iff (by decide)

/-- Where the failed node's updater is not heard of, the next node updates. -/
theorem decideRollout_rollsOn :
    ¬ StopsAtFailure digest "0123456789abcdef0123456789abcdef01234567" 600000 (failedFirst false) := by
  intro h
  have hlist : orderedNodes digest "0123456789abcdef0123456789abcdef01234567" (failedFirst false) =
      (failedFirst false).reverse := by decide +kernel
  refine h.stopped _ _ [] hlist rfl ⟨_, List.mem_singleton_self _, by decide⟩ ?_
  decide +kernel
end

end Pokyh.Cluster

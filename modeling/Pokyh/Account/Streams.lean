import Pokyh.Lib.Buckets
import Pokyh.Lib.Runs

/-!
# Account — Streams

The open event streams (`services/sse.ts`), kept by the key they listen to and by the account that listens.

* `SseManager.removeClient`, `SseManager.addClient`: a stream taken from both, and a new one, past which an account's oldest are closed.
* `Sound`: what the two have in common.
* `indexes_agree`: **after every sequence of operations they hold the same streams**, none of them is empty, and no account has more
  than `MAX_STREAMS_PER_ACCOUNT`.

A stream is told from others by its number, which counts the streams opened before it; what has been closed is remembered for the
statements.
-/

namespace Pokyh.Account.Streams
open Pokyh.Lib

structure SseClient where
  id : ℕ
  res : ℕ
  key : String
  stableUid : Option String
  deriving DecidableEq, Repr

/-- Who is listening; the empty name counts as none. -/
def SseClient.account (client : SseClient) : Option String := client.stableUid.filter (· ≠ "")

def MAX_STREAMS_PER_ACCOUNT : ℕ := 20

structure SseManager where
  clients : Table String (List SseClient)
  byAccount : Table String (List SseClient)
  /-- The timer beats. -/
  heartbeat : Bool
  /-- The `close` handlers of all responses. -/
  listeners : List SseClient
  opened : ℕ
  /-- What `res.end()` was called on. -/
  ended : List SseClient

namespace SseManager

def new : SseManager := ⟨∅, ∅, false, [], 0, []⟩

def removeClient (m : SseManager) (key : String) (client : SseClient) : SseManager :=
  let m := { m with clients := m.clients.dropFrom key client }
  match client.account with
  | some uid => { m with byAccount := m.byAccount.dropFrom uid client }
  | none => m

/-- `own.shift()` while there are too many, each removed and closed. -/
def evict (uid : String) : List SseClient → SseManager → SseManager
  | [], m => m
  | oldest :: own, m =>
    if (oldest :: own).length > MAX_STREAMS_PER_ACCOUNT then
      let m := ({ m with byAccount := m.byAccount.insert uid own } : SseManager).removeClient oldest.key oldest
      evict uid own { m with ended := m.ended ++ [oldest] }
    else m

def startHeartbeat (m : SseManager) : SseManager := { m with heartbeat := true }

def addClient (m : SseManager) (key : String) (res : ℕ) (stableUid : Option String) : SseManager :=
  let client : SseClient := ⟨m.opened, res, key, stableUid⟩
  let m := { m with clients := m.clients.addTo key client, opened := m.opened + 1 }
  let m := match client.account with
    | some uid => evict uid (m.byAccount.bucket uid ++ [client]) { m with byAccount := m.byAccount.addTo uid client }
    | none => m
  { m.startHeartbeat with listeners := m.listeners ++ [client] }

def removeClientByRes (m : SseManager) (key : String) (res : ℕ) : SseManager :=
  match (m.clients.bucket key).find? (·.res = res) with
  | some client => m.removeClient key client
  | none => m

/-- What a write leaves of the streams of a key, where it throws for some. -/
def write (m : SseManager) (key : String) (throws : SseClient → Bool) : SseManager :=
  ((m.clients.bucket key).filter throws).foldl (fun m client => m.removeClient key client) m

/-- One beat of the timer. -/
def beat (m : SseManager) (throws : SseClient → Bool) : SseManager :=
  let m := m.clients.toList.foldl (fun m entry => (entry.2.filter throws).foldl (fun m client => m.removeClient entry.1 client) m) m
  if m.clients = ∅ then { m with heartbeat := false } else m

/-- A connection closes: all handlers of its response. -/
def close (m : SseManager) (res : ℕ) : SseManager :=
  (m.listeners.filter (·.res = res)).foldl (fun m client => m.removeClient client.key client) m

end SseManager

/-- What happens to the manager.  It gives no stream away, so that each is removed under its own key. -/
inductive Op where
  | addClient (key : String) (res : ℕ) (stableUid : Option String)
  | removeClient (client : SseClient)
  | removeClientByRes (key : String) (res : ℕ)
  | close (res : ℕ)
  | write (key : String) (throws : SseClient → Bool)
  | beat (throws : SseClient → Bool)

def SseManager.step (m : SseManager) : Op → SseManager
  | .addClient key res stableUid => m.addClient key res stableUid
  | .removeClient client => m.removeClient client.key client
  | .removeClientByRes key res => m.removeClientByRes key res
  | .close res => m.close res
  | .write key throws => m.write key throws
  | .beat throws => if m.heartbeat then m.beat throws else m

namespace SseManager
variable {m : SseManager} {c client : SseClient} {key uid : String}

/-- What the two indexes have in common. -/
structure Sound (m : SseManager) : Prop where
  inSet : ∀ key, ∀ c ∈ m.clients.bucket key, c.key = key ∧ c.id < m.opened
  inList : ∀ uid, ∀ c ∈ m.byAccount.bucket uid, c.account = some uid ∧ c.id < m.opened
  agree : ∀ c uid, c.account = some uid → (c ∈ m.byAccount.bucket uid ↔ c ∈ m.clients.bucket c.key)
  sets : ∀ key, (m.clients.bucket key).Nodup
  /-- In the order in which they opened. -/
  lists : ∀ uid, (m.byAccount.bucket uid).Pairwise (·.id < ·.id)
  setsFilled : m.clients.Filled
  listsFilled : m.byAccount.Filled

theorem Sound.new : new.Sound where
  inSet := by simp [SseManager.new]
  inList := by simp [SseManager.new]
  agree := by simp [SseManager.new]
  sets := by simp [SseManager.new]
  lists := by simp [SseManager.new]
  setsFilled := Table.filled_empty
  listsFilled := Table.filled_empty

theorem Sound.nodup (h : m.Sound) (uid : String) : (m.byAccount.bucket uid).Nodup :=
  (h.lists uid).imp fun hlt heq => absurd (congrArg SseClient.id heq) (Nat.ne_of_lt hlt)

/-! ### Removing -/

/-- A stream that is removed under its key is in no set any more, and the others are where they were. -/
theorem Sound.set_removeClient (h : m.Sound) (client : SseClient) (key : String) :
    (m.removeClient client.key client).clients.bucket key = (m.clients.bucket key).erase client := by
  have hclients : (m.removeClient client.key client).clients = m.clients.dropFrom client.key client := by
    rw [removeClient]
    cases client.account <;> rfl
  rw [hclients, Table.bucket_dropFrom]
  split
  · rename_i heq
    rw [heq]
  · rename_i hne
    exact (List.erase_of_not_mem fun hmem => hne (h.inSet key client hmem).1.symm).symm

theorem Sound.list_removeClient (h : m.Sound) (client : SseClient) (uid : String) :
    (m.removeClient client.key client).byAccount.bucket uid = (m.byAccount.bucket uid).erase client := by
  rw [removeClient]
  cases haccount : client.account with
  | none =>
      refine (List.erase_of_not_mem fun hmem => ?_).symm
      have hof := (h.inList uid client hmem).1
      rw [haccount] at hof
      cases hof
  | some uid' =>
      dsimp only
      rw [Table.bucket_dropFrom]
      split
      · rename_i heq
        rw [heq]
      · rename_i hne
        refine (List.erase_of_not_mem fun hmem => hne ?_).symm
        have hof := (h.inList uid client hmem).1
        rw [haccount] at hof
        exact (Option.some.inj hof).symm

theorem opened_removeClient (m : SseManager) (key : String) (client : SseClient) : (m.removeClient key client).opened = m.opened := by
  rw [removeClient]
  cases client.account <;> rfl

theorem ended_removeClient (m : SseManager) (key : String) (client : SseClient) : (m.removeClient key client).ended = m.ended := by
  rw [removeClient]
  cases client.account <;> rfl

/-- **Taking a stream from both keeps the two in step.** -/
theorem Sound.removeClient (h : m.Sound) (client : SseClient) : (m.removeClient client.key client).Sound where
  inSet key c hc := by
    rw [h.set_removeClient] at hc
    rw [opened_removeClient]
    exact h.inSet key c (List.mem_of_mem_erase hc)
  inList uid c hc := by
    rw [h.list_removeClient] at hc
    rw [opened_removeClient]
    exact h.inList uid c (List.mem_of_mem_erase hc)
  agree c uid hc := by
    rw [h.set_removeClient, h.list_removeClient, (h.nodup uid).mem_erase_iff, (h.sets c.key).mem_erase_iff, h.agree c uid hc]
  sets key := by
    rw [h.set_removeClient]
    exact (h.sets key).erase client
  lists uid := by
    rw [h.list_removeClient]
    exact (h.lists uid).sublist List.erase_sublist
  setsFilled := by
    rw [SseManager.removeClient]
    cases client.account <;> exact h.setsFilled.dropFrom
  listsFilled := by
    rw [SseManager.removeClient]
    cases client.account with
    | none => exact h.listsFilled
    | some uid => exact h.listsFilled.dropFrom

/-- No account has too many streams. -/
def Bounded (m : SseManager) : Prop := ∀ uid, (m.byAccount.bucket uid).length ≤ MAX_STREAMS_PER_ACCOUNT

theorem Sound.removeAll (h : m.Sound) (hbounded : m.Bounded) (key : String) (list : List SseClient) (hkey : ∀ c ∈ list, c.key = key) :
    (list.foldl (fun m client => m.removeClient key client) m).Sound ∧ (list.foldl (fun m client => m.removeClient key client) m).Bounded ∧
      (list.foldl (fun m client => m.removeClient key client) m).ended = m.ended := by
  refine foldl_invariant (P := fun m' : SseManager => m'.Sound ∧ m'.Bounded ∧ m'.ended = m.ended) ?_ ⟨h, hbounded, rfl⟩
  rintro m' client hclient ⟨hsound, hbounded, hended⟩
  rw [← hkey client hclient]
  refine ⟨hsound.removeClient client, fun uid => ?_, ?_⟩
  · rw [hsound.list_removeClient]
    exact List.erase_sublist.length_le.trans (hbounded uid)
  · rw [ended_removeClient, hended]

/-! ### A new stream -/

theorem Sound.evict {own : List SseClient} (h : m.Sound) (hown : m.byAccount.bucket uid = own) :
    (evict uid own m).Sound ∧ (evict uid own m).byAccount.bucket uid = own.drop (own.length - MAX_STREAMS_PER_ACCOUNT) ∧
      (∀ uid', uid' ≠ uid → (evict uid own m).byAccount.bucket uid' = m.byAccount.bucket uid') ∧
      (evict uid own m).ended = m.ended ++ own.take (own.length - MAX_STREAMS_PER_ACCOUNT) := by
  induction own generalizing m with
  | nil => exact ⟨h, hown, fun _ _ => rfl, by simp [SseManager.evict]⟩
  | cons oldest own ih =>
      by_cases hmany : (oldest :: own).length > MAX_STREAMS_PER_ACCOUNT
      · have hne : own ≠ [] := by
          rintro rfl
          simp [MAX_STREAMS_PER_ACCOUNT] at hmany
        have hlookup : m.byAccount.lookup uid = some (oldest :: own) := by
          rw [Table.bucket] at hown
          cases hlist : m.byAccount.lookup uid with
          | none =>
              rw [hlist] at hown
              cases hown
          | some list =>
              rw [hlist] at hown
              exact congrArg some hown
        have haccount : oldest.account = some uid := (h.inList uid oldest (hown ▸ List.mem_cons_self)).1
        have hmem : oldest ∉ own := by
          have hnodup := h.nodup uid
          rw [hown, List.nodup_cons] at hnodup
          exact hnodup.1
        -- `own.shift()` takes out what `removeClient` would have taken out itself
        have hshift : ({ m with byAccount := m.byAccount.insert uid own } : SseManager).removeClient oldest.key oldest =
            m.removeClient oldest.key oldest := by
          rw [SseManager.removeClient, SseManager.removeClient, haccount]
          simp only [Table.dropFrom_shift hlookup hmem hne]
        have hremoved := h.removeClient oldest
        have hlist : (m.removeClient oldest.key oldest).byAccount.bucket uid = own := by
          rw [h.list_removeClient, hown, List.erase_cons_head]
        have hafter : ({ m.removeClient oldest.key oldest with ended := (m.removeClient oldest.key oldest).ended ++ [oldest] } : SseManager).Sound :=
          ⟨hremoved.inSet, hremoved.inList, hremoved.agree, hremoved.sets, hremoved.lists, hremoved.setsFilled, hremoved.listsFilled⟩
        obtain ⟨hsound, hkept, hothers, hended⟩ := ih hafter hlist
        have hcount : (oldest :: own).length - MAX_STREAMS_PER_ACCOUNT = (own.length - MAX_STREAMS_PER_ACCOUNT) + 1 := by
          rw [List.length_cons] at hmany ⊢
          omega
        rw [SseManager.evict, if_pos hmany, hshift, hcount, List.drop_succ_cons, List.take_succ_cons]
        refine ⟨hsound, hkept, fun uid' hne' => ?_, ?_⟩
        · rw [hothers uid' hne']
          show (m.removeClient oldest.key oldest).byAccount.bucket uid' = m.byAccount.bucket uid'
          rw [h.list_removeClient]
          refine List.erase_of_not_mem fun hother => hne' ?_
          have hof := (h.inList uid' oldest hother).1
          rw [haccount] at hof
          exact (Option.some.inj hof).symm
        · rw [hended]
          show (m.removeClient oldest.key oldest).ended ++ [oldest] ++ _ = _
          rw [ended_removeClient, List.append_assoc, List.singleton_append]
      · have hcount : (oldest :: own).length - MAX_STREAMS_PER_ACCOUNT = 0 := by omega
        rw [SseManager.evict, if_neg hmany, hcount]
        exact ⟨h, hown, fun _ _ => rfl, by simp⟩

/-- The new stream in both, before any other is closed for it. -/
def letIn (m : SseManager) (client : SseClient) : SseManager :=
  { m with
    clients := m.clients.addTo client.key client
    opened := m.opened + 1
    byAccount := match client.account with
      | some uid => m.byAccount.addTo uid client
      | none => m.byAccount }

theorem list_letIn (m : SseManager) (client : SseClient) (uid : String) : (m.letIn client).byAccount.bucket uid =
    if client.account = some uid then m.byAccount.bucket uid ++ [client] else m.byAccount.bucket uid := by
  rw [letIn]
  cases haccount : client.account with
  | none => rfl
  | some uid' =>
      dsimp only
      rw [Table.bucket_addTo]
      by_cases heq : uid = uid'
      · simp [heq]
      · rw [if_neg heq, if_neg fun h => heq (Option.some.inj h).symm]

theorem set_letIn (m : SseManager) (client : SseClient) (key : String) : (m.letIn client).clients.bucket key =
    if key = client.key then m.clients.bucket key ++ [client] else m.clients.bucket key := by
  have hclients : (m.letIn client).clients = m.clients.addTo client.key client := rfl
  rw [hclients, Table.bucket_addTo]
  by_cases heq : key = client.key
  · simp [heq]
  · rw [if_neg heq, if_neg heq]

theorem Sound.letIn (h : m.Sound) (hid : client.id = m.opened) : (m.letIn client).Sound where
  inSet key c hc := by
    have hopened : (m.letIn client).opened = m.opened + 1 := rfl
    rw [set_letIn] at hc
    split at hc
    · rename_i heq
      rcases List.mem_append.mp hc with hc | hc
      · exact ⟨(h.inSet key c hc).1, (h.inSet key c hc).2.trans (Nat.lt_succ_self _)⟩
      · rw [List.mem_singleton.mp hc, hopened, hid]
        exact ⟨heq.symm, Nat.lt_succ_self _⟩
    · exact ⟨(h.inSet key c hc).1, (h.inSet key c hc).2.trans (Nat.lt_succ_self _)⟩
  inList uid c hc := by
    have hopened : (m.letIn client).opened = m.opened + 1 := rfl
    rw [list_letIn] at hc
    split at hc
    · rename_i heq
      rcases List.mem_append.mp hc with hc | hc
      · exact ⟨(h.inList uid c hc).1, (h.inList uid c hc).2.trans (Nat.lt_succ_self _)⟩
      · rw [List.mem_singleton.mp hc, hopened, hid]
        exact ⟨heq, Nat.lt_succ_self _⟩
    · exact ⟨(h.inList uid c hc).1, (h.inList uid c hc).2.trans (Nat.lt_succ_self _)⟩
  agree c uid hc := by
    rw [list_letIn, set_letIn]
    by_cases hnew : c = client
    · subst hnew
      rw [if_pos hc, if_pos rfl]
      simp
    · have hadd : ∀ list : List SseClient, c ∈ list ++ [client] ↔ c ∈ list := by simp [hnew]
      have hleft : (c ∈ if client.account = some uid then m.byAccount.bucket uid ++ [client] else m.byAccount.bucket uid) ↔
          c ∈ m.byAccount.bucket uid := by
        split
        · exact hadd _
        · exact Iff.rfl
      have hright : (c ∈ if c.key = client.key then m.clients.bucket c.key ++ [client] else m.clients.bucket c.key) ↔
          c ∈ m.clients.bucket c.key := by
        split
        · exact hadd _
        · exact Iff.rfl
      rw [hleft, hright]
      exact h.agree c uid hc
  sets key := by
    rw [set_letIn]
    split
    · refine List.nodup_append.mpr ⟨h.sets key, List.nodup_singleton _, fun c hc d hd heq => ?_⟩
      rw [List.mem_singleton.mp hd] at heq
      have hlt := (h.inSet key c hc).2
      rw [heq, hid] at hlt
      exact Nat.lt_irrefl _ hlt
    · exact h.sets key
  lists uid := by
    rw [list_letIn]
    split
    · refine List.pairwise_append.mpr ⟨h.lists uid, List.pairwise_singleton _ _, fun c hc d hd => ?_⟩
      rw [List.mem_singleton.mp hd, hid]
      exact (h.inList uid c hc).2
    · exact h.lists uid
  setsFilled := h.setsFilled.addTo
  listsFilled := by
    rw [SseManager.letIn]
    cases client.account with
    | none => exact h.listsFilled
    | some uid => exact h.listsFilled.addTo

/-- The new stream in both, and no more of its account than may be. -/
def welcome (m : SseManager) (client : SseClient) : SseManager :=
  match client.account with
  | some uid => evict uid (m.byAccount.bucket uid ++ [client]) (m.letIn client)
  | none => m.letIn client

theorem addClient_eq (m : SseManager) (key : String) (res : ℕ) (stableUid : Option String) : m.addClient key res stableUid =
    { (m.welcome ⟨m.opened, res, key, stableUid⟩).startHeartbeat with
      listeners := (m.welcome ⟨m.opened, res, key, stableUid⟩).listeners ++ [⟨m.opened, res, key, stableUid⟩] } := by
  rw [addClient, welcome, letIn]
  cases SseClient.account ⟨m.opened, res, key, stableUid⟩ <;> rfl

/-- **Of an account that has too many streams the oldest are closed.** -/
theorem Sound.welcome (h : m.Sound) (hbounded : m.Bounded) (client : SseClient) (hid : client.id = m.opened) :
    (m.welcome client).Sound ∧ (m.welcome client).Bounded ∧
      ∃ gone, (m.welcome client).ended = m.ended ++ gone ∧ ∀ c ∈ gone, ∃ uid, c.account = some uid ∧
        c ∈ m.byAccount.bucket uid ∧ ∀ d ∈ (m.welcome client).byAccount.bucket uid, c.id < d.id := by
  have hin := h.letIn hid
  have hlist := list_letIn m client
  rw [SseManager.welcome]
  cases haccount : client.account with
  | none =>
      refine ⟨hin, fun uid => ?_, [], by simp [SseManager.letIn], by simp⟩
      rw [hlist, haccount, if_neg (by simp)]
      exact hbounded uid
  | some uid =>
      have hown := hlist uid
      rw [if_pos haccount] at hown
      obtain ⟨hsound, hkept, hothers, hended⟩ := hin.evict hown
      have hlength := hbounded uid
      -- at most one stream is too many
      have hcount : (m.byAccount.bucket uid ++ [client]).length - MAX_STREAMS_PER_ACCOUNT ≤ (m.byAccount.bucket uid).length := by
        rw [List.length_append, List.length_singleton]
        simp only [MAX_STREAMS_PER_ACCOUNT] at hlength ⊢
        omega
      refine ⟨hsound, fun uid' => ?_, _, hended, fun c hc => ⟨uid, ?_⟩⟩
      · by_cases heq : uid' = uid
        · rw [heq, hkept, List.length_drop]
          omega
        · rw [hothers uid' heq, hlist, haccount, if_neg fun hsame => heq (Option.some.inj hsame).symm]
          exact hbounded uid'
      · have hgone := hc
        rw [List.take_append_of_le_length hcount] at hc
        have hold := List.mem_of_mem_take hc
        refine ⟨(h.inList uid c hold).1, hold, fun d hd => ?_⟩
        have hsorted := hin.lists uid
        rw [hown, ← List.take_append_drop ((m.byAccount.bucket uid ++ [client]).length - MAX_STREAMS_PER_ACCOUNT)
          (m.byAccount.bucket uid ++ [client]), List.pairwise_append] at hsorted
        rw [hkept] at hd
        exact hsorted.2.2 c hgone d hd

theorem Sound.addClient (h : m.Sound) (hbounded : m.Bounded) (key : String) (res : ℕ) (stableUid : Option String) :
    (m.addClient key res stableUid).Sound ∧ (m.addClient key res stableUid).Bounded ∧
      ∃ gone, (m.addClient key res stableUid).ended = m.ended ++ gone ∧ ∀ c ∈ gone, ∃ uid, c.account = some uid ∧
        c ∈ m.byAccount.bucket uid ∧ ∀ d ∈ (m.addClient key res stableUid).byAccount.bucket uid, c.id < d.id := by
  obtain ⟨hsound, hkept, hgone⟩ := h.welcome hbounded ⟨m.opened, res, key, stableUid⟩ rfl
  rw [addClient_eq]
  exact ⟨⟨hsound.inSet, hsound.inList, hsound.agree, hsound.sets, hsound.lists, hsound.setsFilled, hsound.listsFilled⟩, hkept, hgone⟩

/-! ### Runs -/

/-- What an operation closes: nothing, or streams of an account that are older than all it keeps. -/
def ClosesOldest (m m' : SseManager) : Prop :=
  ∃ gone, m'.ended = m.ended ++ gone ∧ ∀ c ∈ gone, ∃ uid, c.account = some uid ∧ c ∈ m.byAccount.bucket uid ∧
    ∀ d ∈ m'.byAccount.bucket uid, c.id < d.id

theorem closesOldest_of_ended {m m' : SseManager} (h : m'.ended = m.ended) : m.ClosesOldest m' := ⟨[], by simp [h], by simp⟩

theorem Sound.beat (h : m.Sound) (hbounded : m.Bounded) (throws : SseClient → Bool) :
    (m.beat throws).Sound ∧ (m.beat throws).Bounded ∧ (m.beat throws).ended = m.ended := by
  have hloop : ∀ m' : SseManager, (m'.Sound ∧ m'.Bounded ∧ m'.ended = m.ended) → ∀ key set, (key, set) ∈ m.clients.toList →
      ((set.filter throws).foldl (fun m client => m.removeClient key client) m').Sound ∧
        ((set.filter throws).foldl (fun m client => m.removeClient key client) m').Bounded ∧
          ((set.filter throws).foldl (fun m client => m.removeClient key client) m').ended = m.ended := by
    rintro m' ⟨hsound, hkept, hended⟩ key set hset
    have hbucket : m.clients.bucket key = set := by rw [Table.bucket, Table.mem_toList.mp hset]; rfl
    obtain ⟨hsound', hkept', hended'⟩ := hsound.removeAll hkept key (set.filter throws)
      fun c hc => (h.inSet key c (hbucket ▸ List.mem_of_mem_filter hc)).1
    exact ⟨hsound', hkept', hended'.trans hended⟩
  have hall := foldl_invariant (P := fun m' : SseManager => m'.Sound ∧ m'.Bounded ∧ m'.ended = m.ended)
    (f := fun (m : SseManager) (entry : String × List SseClient) => (entry.2.filter throws).foldl (fun m client => m.removeClient entry.1 client) m)
    (l := m.clients.toList) (fun m' entry hentry hm' => hloop m' hm' entry.1 entry.2 hentry) ⟨h, hbounded, rfl⟩
  rw [SseManager.beat]
  split
  · exact ⟨⟨hall.1.inSet, hall.1.inList, hall.1.agree, hall.1.sets, hall.1.lists, hall.1.setsFilled, hall.1.listsFilled⟩, hall.2⟩
  · exact hall

/-- **One operation keeps the two in step.** -/
theorem Sound.step (h : m.Sound) (hbounded : m.Bounded) (op : Op) :
    (m.step op).Sound ∧ (m.step op).Bounded ∧ m.ClosesOldest (m.step op) := by
  cases op with
  | addClient key res stableUid => exact h.addClient hbounded key res stableUid
  | removeClient client =>
      refine ⟨h.removeClient client, fun uid => ?_, closesOldest_of_ended (ended_removeClient m client.key client)⟩
      show ((m.removeClient client.key client).byAccount.bucket uid).length ≤ _
      rw [h.list_removeClient]
      exact List.erase_sublist.length_le.trans (hbounded uid)
  | removeClientByRes key res =>
      rw [SseManager.step, removeClientByRes]
      cases hfound : (m.clients.bucket key).find? (·.res = res) with
      | none => exact ⟨h, hbounded, closesOldest_of_ended rfl⟩
      | some client =>
          obtain ⟨hsound, hkept, hended⟩ := h.removeAll hbounded key [client]
            (by simpa using (h.inSet key client (List.mem_of_find?_eq_some hfound)).1)
          exact ⟨hsound, hkept, closesOldest_of_ended hended⟩
  | close res =>
      have hall := foldl_invariant (P := fun m' : SseManager => m'.Sound ∧ m'.Bounded ∧ m'.ended = m.ended)
        (f := fun (m : SseManager) (client : SseClient) => m.removeClient client.key client) (l := m.listeners.filter (·.res = res))
        (fun m' client _ hm' => by
          obtain ⟨hsound, hkept, hended⟩ := hm'.1.removeAll hm'.2.1 client.key [client] (by simp)
          exact ⟨hsound, hkept, hended.trans hm'.2.2⟩) ⟨h, hbounded, rfl⟩
      exact ⟨hall.1, hall.2.1, closesOldest_of_ended hall.2.2⟩
  | write key throws =>
      obtain ⟨hsound, hkept, hended⟩ := h.removeAll hbounded key ((m.clients.bucket key).filter throws)
        fun c hc => (h.inSet key c (List.mem_of_mem_filter hc)).1
      exact ⟨hsound, hkept, closesOldest_of_ended hended⟩
  | beat throws =>
      rw [SseManager.step]
      split
      · obtain ⟨hsound, hkept, hended⟩ := h.beat hbounded throws
        exact ⟨hsound, hkept, closesOldest_of_ended hended⟩
      · exact ⟨h, hbounded, closesOldest_of_ended rfl⟩

/-- The manager after some operations. -/
def after (ops : List Op) : SseManager := ops.foldl step new

theorem after_sound (ops : List Op) : (after ops).Sound ∧ (after ops).Bounded :=
  foldl_invariant (P := fun m : SseManager => m.Sound ∧ m.Bounded)
    (fun _ op _ hm => ⟨(hm.1.step hm.2 op).1, (hm.1.step hm.2 op).2.1⟩) ⟨Sound.new, fun uid => by simp [SseManager.new]⟩

end SseManager

/-- **The two indexes agree after every sequence of operations.** -/
theorem indexes_agree (ops : List Op) :
    (∀ c uid, c.account = some uid → (c ∈ (SseManager.after ops).byAccount.bucket uid ↔ c ∈ (SseManager.after ops).clients.bucket c.key)) ∧
      (∀ key, (SseManager.after ops).clients.lookup key ≠ some []) ∧ (∀ uid, (SseManager.after ops).byAccount.lookup uid ≠ some []) ∧
      (∀ uid, ((SseManager.after ops).byAccount.bucket uid).length ≤ MAX_STREAMS_PER_ACCOUNT) ∧
      ∀ op, ∃ gone, ((SseManager.after ops).step op).ended = (SseManager.after ops).ended ++ gone ∧
        ∀ c ∈ gone, ∃ uid, c.account = some uid ∧ c ∈ (SseManager.after ops).byAccount.bucket uid ∧
          ∀ d ∈ ((SseManager.after ops).step op).byAccount.bucket uid, c.id < d.id := by
  obtain ⟨hsound, hbounded⟩ := SseManager.after_sound ops
  exact ⟨hsound.agree, hsound.setsFilled, hsound.listsFilled, hbounded, fun op => (hsound.step hbounded op).2.2⟩

end Pokyh.Account.Streams

import Pokyh.Cluster.Pairing

/-!
# Cluster — Invites

What an invite admits.  The window is looked at when an exchange begins; the confirmation that stores
the link, up to two minutes later, looks at the exchange only, and exchanges are held per initiator.
So a second initiator that began in time, a lock, the end of the window or its removal may come between.

* `Event.timely`: a confirmation is taken while its window is open, and nothing ends the window while
  the link is being stored.
* `invite_admits_one`: **in a run of timely events each invite is used at most once, within its window,
  and an entry that is no longer pending keeps its node id and its link key.**
-/

namespace Pokyh.Cluster.Pairing
open Pokyh.Lib

/-- The tasks an event leaves alone. -/
def Event.others (s : Node) : Event → List Task
  | .resume task _ _ | .fail task => s.tasks.erase task
  | _ => s.tasks

/-- A confirmation that is accepted finds the window of its entry open, and no event ends the window of
an entry while another task stores a link in it. -/
def Event.timely (s : Node) (event : Event) : Bool :=
  (match event with
    | .pairConfirm _ body context => (s.accepts body context).all fun handshake =>
        s.peers.all fun p => p.id ≠ handshake.peerRowId || openWindow s.now p
    | _ => true) &&
  (event.others s).all fun
    | .storing _ handshake _ => !event.ends s handshake.peerRowId
    | _ => true

theorem Event.timely_confirm {s : Node} {request : ℕ} {body : PairConfirmBody} {context : ChannelContext}
    {handshake : ResponderHandshake} (h : (Event.pairConfirm request body context).timely s)
    (hacc : s.accepts body context = some handshake) :
    ∀ p ∈ s.peers, p.id = handshake.peerRowId → openWindow s.now p := by
  intro p hp hid
  have hall : (s.accepts body context).all _ = true := (Bool.and_eq_true_iff.mp h).1
  rw [hacc, Option.all_some, List.all_eq_true] at hall
  simpa [hid] using hall p hp

theorem Event.timely_store {s : Node} {event : Event} {request : ℕ} {handshake : ResponderHandshake}
    {others : Option (List ℕ)} (h : event.timely s)
    (hmem : .storing request handshake others ∈ event.others s) : ¬ event.ends s handshake.peerRowId := by
  have hstore := List.all_eq_true.mp (Bool.and_eq_true_iff.mp h).2 _ hmem
  simpa using hstore

/-- What a task goes on as, as far as it stores a link. -/
def Task.Continues (task : Task) : Task → Prop
  | .deriveKeys .. => False
  | .storing request handshake _ => ∃ others, task = .storing request handshake others ∧ others ≠ some []
  | _ => True

/-- Where a task of an event comes from. -/
def Task.StemsFrom (s : Node) (event : Event) : Task → Prop
  | .deriveKeys _ _ _ candidates => ∀ p ∈ candidates, p ∈ s.peers ∧ p.role = .host
  | .storing request handshake _ =>
      (∃ body context, event = .pairConfirm request body context ∧
        s.accepts body context = some handshake) ∨
      ∃ others ephemeral nonce, others ≠ some [] ∧ .storing request handshake others ∈ s.tasks ∧
        event = .resume (.storing request handshake others) ephemeral nonce
  | _ => True

namespace Node
variable {env : Env} {s s' : Node} {event : Event}

/-! ### What an event does to tasks, exchanges and activations -/

theorem pairConfirm_tasks {request : ℕ} {body : PairConfirmBody} {context : ChannelContext} {t : Task}
    (ht : t ∈ (s.handlePairConfirm request body context).tasks) :
    t ∈ s.tasks ∨ (∃ rows, t = .rejecting request rows false) ∨
      ∃ h, t = .storing request h none ∧ s.accepts body context = some h := by
  unfold handlePairConfirm at ht
  split at ht
  · exact .inl ht
  · next h heq =>
      split_ifs at ht with hexp htls hmac
      · exact .inl ht
      · exact .inl ht
      · rcases List.mem_cons.mp ht with rfl | ht
        · exact .inr (.inl ⟨_, rfl⟩)
        · exact .inl ht
      · rcases List.mem_cons.mp ht with rfl | ht
        · refine .inr (.inr ⟨h, rfl, ?_⟩)
          simp_all [accepts, Option.filter]
        · exact .inl ht

theorem pairInit_tasks {request : ℕ} {body : PairInitBody} {context : ChannelContext} {t : Task}
    (ht : t ∈ (s.handlePairInit env request body context).tasks) :
    t ∈ s.tasks ∨ t = .deriveKeys request body context.client
      (candidatesFor s.now body context.client s.peers) := by
  unfold handlePairInit at ht
  split at ht
  · exact .inl ht
  · split at ht
    · exact .inl ht
    · rcases List.mem_cons.mp ht with rfl | ht
      · exact .inr rfl
      · exact .inl ht

theorem notePairingFailure_tasks {request id : ℕ} {rows : List ℕ} {t : Task}
    (ht : t ∈ (s.notePairingFailure env request id rows).tasks) :
    t ∈ s.tasks ∨ ∃ rows locking, t = .rejecting request rows locking := by
  unfold notePairingFailure at ht
  split at ht
  · exact (List.mem_cons.mp ht).symm.imp_right fun h => ⟨_, _, h⟩
  · split at ht <;> exact (List.mem_cons.mp ht).symm.imp_right fun h => ⟨_, _, h⟩

/-- A link is stored in an entry that is still there, or the handler fails. -/
theorem storeLink_cases (request : ℕ) (h : ResponderHandshake) :
    s.storeLink request h = s.answer request (.status 500) ∨
      (s.peer h.peerRowId).isSome ∧ ∃ f : ClusterPeer → ClusterPeer, (∀ p, (f p).status = .active) ∧
        s.storeLink request h = { (s.modify h.peerRowId f).start (.stored request h) with
          activations := ⟨h.peerRowId, h.initiatorId, h.linkKey, h.confirmInitiator,
            (s.peer h.peerRowId).any (openWindow s.now)⟩ :: s.activations } := by
  unfold storeLink
  split
  · exact .inl rfl
  · next s' hs =>
      obtain ⟨⟨hrow, -⟩, rfl⟩ := activatePeer_eq_some.mp hs
      exact .inr ⟨hrow, _, fun p => rfl, rfl⟩

/-- What a task goes on as. -/
theorem proceed_tasks {task t : Task} {ephemeral : ℕ} {nonce : Bytes}
    (ht : t ∈ (s.proceed env ephemeral nonce task).tasks) : t ∈ s.tasks ∨ task.Continues t := by
  have hnew {t₀ : Task} (h : t ∈ t₀ :: s.tasks) : t ∈ s.tasks ∨ t = t₀ := (List.mem_cons.mp h).symm
  cases task with
  | deriveKeys request body client candidates =>
      simp only [proceed] at ht
      split at ht
      · exact (hnew ht).imp_right fun h => by rw [h]; trivial
      · split at ht <;> exact .inl ht
  | rejecting request rows locking =>
      cases rows with
      | nil => exact .inl ht
      | cons id rows =>
          cases locking with
          | false =>
              refine (notePairingFailure_tasks ht).imp_right ?_
              rintro ⟨_, _, h⟩
              rw [h]
              trivial
          | true =>
              simp only [proceed] at ht
              split at ht
              · exact .inl ht
              · next s' hs =>
                  obtain ⟨-, rfl⟩ := setPeerStatus_eq_some.mp hs
                  exact (hnew ht).imp_right fun h => by rw [h]; trivial
  | storing request handshake others =>
      cases others with
      | none => exact (hnew ht).imp_right fun h => by rw [h]; exact ⟨_, rfl, by simp⟩
      | some others =>
          cases others with
          | nil =>
              rcases storeLink_cases (s := s) request handshake with heq | ⟨-, f, -, heq⟩
              · rw [proceed, heq] at ht
                exact .inl ht
              · rw [proceed, heq] at ht
                exact (hnew ht).imp_right fun h => by rw [h]; trivial
          | cons id others => exact (hnew ht).imp_right fun h => by rw [h]; exact ⟨_, rfl, by simp⟩
  | stored request handshake => exact (hnew ht).imp_right fun h => by rw [h]; trivial
  | activating request row => exact .inl ht
  | expiring rows =>
      cases rows with
      | nil => exact .inl ht
      | cons id rows =>
          simp only [proceed] at ht
          split at ht
          · exact .inl ht
          · next s' hs =>
              obtain ⟨-, rfl⟩ := setPeerStatus_eq_some.mp hs
              exact (hnew ht).imp_right fun h => by rw [h]; trivial

/-- **What an event leaves to be done.** -/
theorem step_tasks (h : s.step env event = some s') {t : Task} (ht : t ∈ s'.tasks) :
    t ∈ event.others s ∨ t.StemsFrom s event := by
  cases event with
  | pairInit request body context =>
      cases h
      refine (pairInit_tasks ht).imp_right fun heq => ?_
      rw [heq]
      intro p hp
      have hmem := List.mem_of_mem_take hp
      simp only [List.mem_filter, Bool.and_eq_true, decide_eq_true_eq] at hmem
      exact ⟨hmem.1, hmem.2.1.1.1.1⟩
  | pairConfirm request body context =>
      cases h
      rcases pairConfirm_tasks ht with ht | ⟨rows, rfl⟩ | ⟨handshake, rfl, hacc⟩
      · exact .inl ht
      · exact .inr trivial
      · exact .inr (.inl ⟨body, context, rfl, hacc⟩)
  | resume task ephemeral nonce =>
      obtain ⟨hmem, ⟨⟩⟩ := Option.ite_none_right_eq_some.mp h
      refine (proceed_tasks ht).imp_right fun hnew => ?_
      cases t with
      | deriveKeys _ _ _ _ => exact hnew.elim
      | storing request handshake _ =>
          obtain ⟨others, rfl, hne⟩ := hnew
          exact .inr ⟨others, ephemeral, nonce, hne, hmem, rfl⟩
      | rejecting _ _ _ | stored _ _ | activating _ _ | expiring _ => trivial
  | fail task =>
      obtain ⟨-, ⟨⟩⟩ := Option.ite_none_right_eq_some.mp h
      cases task <;> exact .inl ht
  | expirePairingWindows =>
      cases h
      rcases List.mem_cons.mp ht with rfl | ht
      · exact .inr trivial
      · exact .inl ht
  | setPeerStatus id status =>
      obtain ⟨-, h⟩ := Option.ite_none_left_eq_some.mp h
      obtain ⟨-, rfl⟩ := setPeerStatus_eq_some.mp h
      exact .inl ht
  | joined id nodeId name linkKey tls =>
      obtain ⟨-, h⟩ := Option.ite_none_right_eq_some.mp h
      obtain ⟨-, rfl⟩ := activatePeer_eq_some.mp h
      exact .inl ht
  | forgetPairing _ | deletePeer _ | createPendingPeer _ | sweep => cases h; exact .inl ht
  | wait now =>
      obtain ⟨-, ⟨⟩⟩ := Option.ite_none_right_eq_some.mp h
      exact .inl ht
  | restart => cases h; cases ht

theorem beginExchange_row {now : ℕ} {body : PairInitBody} {client : Option String} {peer : ClusterPeer}
    {psk nonce : Bytes} {ephemeral : ℕ} {r : ResponderHandshake × PairAccept × Bytes}
    (h : beginExchange env now body client peer psk ephemeral nonce = .ok r) : r.1.peerRowId = peer.id := by
  unfold beginExchange at h
  split at h
  · cases h
  · split at h
    · cases h
    · simp only at h
      split at h
      · cases h
      · cases h
        rfl

theorem matchCandidate_mem {body : PairInitBody} {client : Option String} {candidates : List ClusterPeer}
    {r : ClusterPeer × Bytes} (h : matchCandidate env body client candidates = some r) :
    r.1 ∈ candidates := by
  obtain ⟨p, hp, h⟩ := List.exists_of_findSome?_eq_some h
  obtain ⟨secret, -, h⟩ := Option.bind_eq_some_iff.mp h
  obtain ⟨-, ⟨⟩⟩ := Option.ite_none_right_eq_some.mp h
  exact hp

theorem forget_exchanges {initiator i : String} {h : ResponderHandshake}
    (hh : (s.forget initiator).responderHandshakes i = some h) : s.responderHandshakes i = some h := by
  by_cases hi : i = initiator
  · subst hi
    simp [forget] at hh
  · simpa [forget, hi] using hh

theorem pairInit_exchanges {request : ℕ} {body : PairInitBody} {context : ChannelContext} :
    (s.handlePairInit env request body context).responderHandshakes = s.responderHandshakes ∧
      (s.handlePairInit env request body context).activations = s.activations := by
  unfold handlePairInit
  split
  · exact ⟨rfl, rfl⟩
  · split <;> exact ⟨rfl, rfl⟩

theorem pairConfirm_exchanges {request : ℕ} {body : PairConfirmBody} {context : ChannelContext} :
    (∀ i h, (s.handlePairConfirm request body context).responderHandshakes i = some h →
      s.responderHandshakes i = some h) ∧
      (s.handlePairConfirm request body context).activations = s.activations := by
  unfold handlePairConfirm
  split
  · exact ⟨fun _ _ h => h, rfl⟩
  · split_ifs
    · exact ⟨fun _ _ h => forget_exchanges h, rfl⟩
    · exact ⟨fun _ _ h => h, rfl⟩
    · exact ⟨fun _ _ h => forget_exchanges h, rfl⟩
    · exact ⟨fun _ _ h => h, rfl⟩

theorem notePairingFailure_exchanges {request id : ℕ} {rows : List ℕ} :
    (s.notePairingFailure env request id rows).responderHandshakes = s.responderHandshakes ∧
      (s.notePairingFailure env request id rows).activations = s.activations := by
  unfold notePairingFailure
  split
  · exact ⟨rfl, rfl⟩
  · split <;> exact ⟨rfl, rfl⟩

/-- An exchange begins with a window that was open when the keys were derived. -/
theorem proceed_exchanges {task : Task} {ephemeral : ℕ} {nonce : Bytes} {i : String}
    {h : ResponderHandshake} (hh : (s.proceed env ephemeral nonce task).responderHandshakes i = some h) :
    s.responderHandshakes i = some h ∨ ∃ request body client candidates,
      task = .deriveKeys request body client candidates ∧ ∃ p ∈ candidates, p.id = h.peerRowId := by
  cases task with
  | deriveKeys request body client candidates =>
      simp only [proceed] at hh
      split at hh
      · exact .inl hh
      · next peer psk hmatch =>
          split at hh
          · exact .inl hh
          · next handshake accept mac hbegin =>
              by_cases hi : i = body.from
              · subst hi
                simp only [Function.update_self, Option.some.injEq] at hh
                refine .inr ⟨request, body, client, candidates, rfl, peer, matchCandidate_mem hmatch, ?_⟩
                rw [← hh]
                exact (beginExchange_row hbegin).symm
              · simp only [Function.update_of_ne hi] at hh
                exact .inl hh
  | rejecting request rows locking =>
      cases rows with
      | nil => exact .inl hh
      | cons id rows =>
          cases locking with
          | false =>
              rw [proceed, notePairingFailure_exchanges.1] at hh
              exact .inl hh
          | true =>
              simp only [proceed] at hh
              split at hh
              · exact .inl hh
              · next s' hs =>
                  obtain ⟨-, rfl⟩ := setPeerStatus_eq_some.mp hs
                  exact .inl hh
  | storing request handshake others =>
      cases others with
      | none => exact .inl hh
      | some others =>
          cases others with
          | nil =>
              rcases storeLink_cases (s := s) request handshake with heq | ⟨-, f, -, heq⟩
              · rw [proceed, heq] at hh
                exact .inl hh
              · rw [proceed, heq] at hh
                exact .inl hh
          | cons id others => exact .inl hh
  | stored request handshake => exact .inl (forget_exchanges hh)
  | activating request row => exact .inl hh
  | expiring rows =>
      cases rows with
      | nil => exact .inl hh
      | cons id rows =>
          simp only [proceed] at hh
          split at hh
          · exact .inl hh
          · next s' hs =>
              obtain ⟨-, rfl⟩ := setPeerStatus_eq_some.mp hs
              exact .inl hh

theorem step_exchanges (h : s.step env event = some s') {i : String} {x : ResponderHandshake}
    (hx : s'.responderHandshakes i = some x) :
    s.responderHandshakes i = some x ∨ ∃ request body client candidates,
      .deriveKeys request body client candidates ∈ s.tasks ∧ ∃ p ∈ candidates, p.id = x.peerRowId := by
  cases event with
  | pairInit request body context =>
      cases h
      rw [pairInit_exchanges.1] at hx
      exact .inl hx
  | pairConfirm request body context =>
      cases h
      exact .inl (pairConfirm_exchanges.1 _ _ hx)
  | resume task ephemeral nonce =>
      obtain ⟨hmem, ⟨⟩⟩ := Option.ite_none_right_eq_some.mp h
      refine (proceed_exchanges hx).imp_right fun ⟨request, body, client, candidates, heq, hrow⟩ => ?_
      exact ⟨request, body, client, candidates, heq ▸ hmem, hrow⟩
  | fail task =>
      obtain ⟨-, ⟨⟩⟩ := Option.ite_none_right_eq_some.mp h
      cases task <;> exact .inl hx
  | setPeerStatus id status =>
      obtain ⟨-, h⟩ := Option.ite_none_left_eq_some.mp h
      obtain ⟨-, rfl⟩ := setPeerStatus_eq_some.mp h
      exact .inl hx
  | joined id nodeId name linkKey tls =>
      obtain ⟨-, h⟩ := Option.ite_none_right_eq_some.mp h
      obtain ⟨-, rfl⟩ := activatePeer_eq_some.mp h
      exact .inl hx
  | forgetPairing _ | sweep =>
      cases h
      exact .inl (Option.filter_eq_some_iff.mp hx).1
  | expirePairingWindows | deletePeer _ | createPendingPeer _ => cases h; exact .inl hx
  | wait now =>
      obtain ⟨-, ⟨⟩⟩ := Option.ite_none_right_eq_some.mp h
      exact .inl hx
  | restart => cases h; cases hx

/-- The event stores a link in an entry that is there. -/
structure Activates (s : Node) (event : Event) (s' : Node) (request : ℕ) (h : ResponderHandshake) :
    Prop where
  task : .storing request h (some []) ∈ s.tasks
  event_eq : ∃ ephemeral nonce, event = .resume (.storing request h (some [])) ephemeral nonce
  row : (s.peer h.peerRowId).isSome
  active : ∀ p ∈ s'.peers, p.id = h.peerRowId → p.status = .active
  activations : s'.activations = ⟨h.peerRowId, h.initiatorId, h.linkKey, h.confirmInitiator,
    (s.peer h.peerRowId).any (openWindow s.now)⟩ :: s.activations

theorem proceed_activations {task : Task} {ephemeral : ℕ} {nonce : Bytes} (hmem : task ∈ s.tasks) :
    ((s.done task).proceed env ephemeral nonce task).activations = s.activations ∨
      ∃ request h, s.Activates (.resume task ephemeral nonce)
        ((s.done task).proceed env ephemeral nonce task) request h := by
  cases task with
  | deriveKeys request body client candidates =>
      simp only [proceed]
      split
      · exact .inl rfl
      · split <;> exact .inl rfl
  | rejecting request rows locking =>
      cases rows with
      | nil => exact .inl rfl
      | cons id rows =>
          cases locking with
          | false => exact .inl notePairingFailure_exchanges.2
          | true =>
              simp only [proceed]
              split
              · exact .inl rfl
              · next s' hs =>
                  obtain ⟨-, rfl⟩ := setPeerStatus_eq_some.mp hs
                  exact .inl rfl
  | storing request handshake others =>
      cases others with
      | none => exact .inl rfl
      | some others =>
          cases others with
          | nil =>
              rcases storeLink_cases (s := s.done (.storing request handshake (some []))) request handshake with
                heq | ⟨hrow, f, hf, heq⟩
              · rw [proceed, heq]
                exact .inl rfl
              · refine .inr ⟨request, handshake, hmem, ⟨ephemeral, nonce, rfl⟩, hrow, fun p hp hid => ?_, ?_⟩
                · rw [proceed, heq] at hp
                  obtain ⟨q, hq, rfl⟩ := List.mem_map.mp hp
                  by_cases hq' : q.id = handshake.peerRowId
                  · rw [if_pos hq']
                    exact hf q
                  · rw [if_neg hq'] at hid
                    exact absurd hid hq'
                · rw [proceed, heq]
                  rfl
          | cons id others => exact .inl rfl
  | stored request handshake | activating request row => exact .inl rfl
  | expiring rows =>
      cases rows with
      | nil => exact .inl rfl
      | cons id rows =>
          simp only [proceed]
          split
          · exact .inl rfl
          · next s' hs =>
              obtain ⟨-, rfl⟩ := setPeerStatus_eq_some.mp hs
              exact .inl rfl

theorem step_activations (h : s.step env event = some s') :
    s'.activations = s.activations ∨ ∃ request x, s.Activates event s' request x := by
  cases event with
  | pairInit request body context => cases h; exact .inl pairInit_exchanges.2
  | pairConfirm request body context => cases h; exact .inl pairConfirm_exchanges.2
  | resume task ephemeral nonce =>
      obtain ⟨hmem, ⟨⟩⟩ := Option.ite_none_right_eq_some.mp h
      exact proceed_activations hmem
  | fail task =>
      obtain ⟨-, ⟨⟩⟩ := Option.ite_none_right_eq_some.mp h
      cases task <;> exact .inl rfl
  | setPeerStatus id status =>
      obtain ⟨-, h⟩ := Option.ite_none_left_eq_some.mp h
      obtain ⟨-, rfl⟩ := setPeerStatus_eq_some.mp h
      exact .inl rfl
  | joined id nodeId name linkKey tls =>
      obtain ⟨-, h⟩ := Option.ite_none_right_eq_some.mp h
      obtain ⟨-, rfl⟩ := activatePeer_eq_some.mp h
      exact .inl rfl
  | forgetPairing _ | sweep | restart | expirePairingWindows | deletePeer _ | createPendingPeer _ =>
      cases h
      exact .inl rfl
  | wait now =>
      obtain ⟨-, ⟨⟩⟩ := Option.ite_none_right_eq_some.mp h
      exact .inl rfl

/-! ### The invariant -/

/-- A row number that is, as long as its entry exists, one of an entry that waits to be contacted. -/
structure Hosts (s : Node) (id : ℕ) : Prop where
  used : id < s.nextId
  role : ∀ p ∈ s.peers, p.id = id → p.role = .host

/-- As long as its entry exists, its window is open. -/
def Opens (s : Node) (id : ℕ) : Prop := ∀ p ∈ s.peers, p.id = id → openWindow s.now p

theorem openWindow_pending {now : ℕ} {p : ClusterPeer} (h : openWindow now p) : p.status = .pending := by
  simp only [openWindow, Bool.and_eq_true, decide_eq_true_eq] at h
  exact h.1.1

variable {ends links : ℕ → Prop}

theorem Follows.nextId_le (hf : Follows ends links s s') : s.nextId ≤ s'.nextId := by
  rcases hf.keys with ⟨-, h⟩ | ⟨-, h⟩ <;> omega

/-- An entry with a number given out before was there before. -/
theorem Follows.old (hf : Follows ends links s s') {p' : ClusterPeer} (hp : p' ∈ s'.peers)
    (hid : p'.id < s.nextId) :
    ∃ p ∈ s.peers, p.Follows (ends p.id) (links p.id) s.now s'.now p' := by
  rcases hf.rows p' hp with h | ⟨h, -⟩
  · exact h
  · omega

theorem Hosts.follows {id : ℕ} (h : s.Hosts id) (hf : Follows ends links s s') : s'.Hosts id := by
  refine ⟨Nat.lt_of_lt_of_le h.used hf.nextId_le, fun p' hp hid => ?_⟩
  obtain ⟨p, hp, hpf⟩ := hf.old hp (hid ▸ h.used)
  rw [hpf.role]
  exact h.role p hp (hpf.id.symm.trans hid)

theorem Opens.follows {id : ℕ} (h : s.Opens id) (hf : Follows ends links s s') (hid : id < s.nextId)
    (hends : ¬ ends id) : s'.Opens id := by
  intro p' hp hid'
  obtain ⟨p, hp, hpf⟩ := hf.old hp (hid' ▸ hid)
  have hpid : p.id = id := hpf.id.symm.trans hid'
  exact hpf.window (h p hp hpid) (hpid ▸ hends)

end Node

/-- A task works on entries that wait to be contacted, and stores a link only where the window is
open. -/
def Task.Fits (s : Node) : Task → Prop
  | .deriveKeys _ _ _ candidates => ∀ p ∈ candidates, s.Hosts p.id
  | .storing _ h _ => s.Hosts h.peerRowId ∧ s.Opens h.peerRowId
  | _ => True

namespace Node
variable {env : Env} {s s' : Node} {event : Event} {ends links : ℕ → Prop}

structure Inv (s : Node) : Prop where
  keyed : s.Keyed
  exchanges : ∀ i h, s.responderHandshakes i = some h → s.Hosts h.peerRowId
  tasks : ∀ task ∈ s.tasks, task.Fits s
  once : (s.activations.map (·.row)).Nodup
  inWindow : ∀ x ∈ s.activations, x.inWindow
  used : ∀ x ∈ s.activations, x.row < s.nextId
  done : ∀ x ∈ s.activations, ∀ p ∈ s.peers, p.id = x.row → p.status ≠ .pending

/-- A node that has just started. -/
structure Started (s : Node) : Prop where
  keyed : s.Keyed
  exchanges : ∀ i, s.responderHandshakes i = none
  tasks : s.tasks = []
  activations : s.activations = []

theorem Started.inv (h : s.Started) : s.Inv where
  keyed := h.keyed
  exchanges i x hx := by rw [h.exchanges i] at hx; cases hx
  tasks := by rw [h.tasks]; exact nofun
  once := by rw [h.activations]; exact List.nodup_nil
  inWindow := by rw [h.activations]; exact nofun
  used := by rw [h.activations]; exact nofun
  done := by rw [h.activations]; exact nofun

theorem accepts_mem {body : PairConfirmBody} {context : ChannelContext} {h : ResponderHandshake}
    (hh : s.accepts body context = some h) : s.responderHandshakes body.from = some h :=
  (Option.filter_eq_some_iff.mp hh).1

theorem mem_of_others {task : Task} (h : task ∈ event.others s) : task ∈ s.tasks := by
  cases event with
  | resume task' _ _ | fail task' => exact List.mem_of_mem_erase h
  | _ => exact h

/-- What is left to be done still fits after a timely event. -/
theorem Inv.step_fits (hinv : s.Inv) (hok : event.timely s) (h : s.step env event = some s')
    (hf : Follows (event.ends s ·) event.links s s') {task : Task} (ht : task ∈ s'.tasks) :
    task.Fits s' := by
  rcases step_tasks h ht with hold | hnew
  · have hfits := hinv.tasks task (mem_of_others hold)
    cases task with
    | deriveKeys _ _ _ candidates => exact fun p hp => (hfits p hp).follows hf
    | storing request x others =>
        exact ⟨hfits.1.follows hf, hfits.2.follows hf hfits.1.used (Event.timely_store hok hold)⟩
    | rejecting _ _ _ | stored _ _ | activating _ _ | expiring _ => trivial
  · cases task with
    | deriveKeys _ _ _ candidates =>
        intro p hp
        obtain ⟨hmem, hrole⟩ := hnew p hp
        have hhosts : s.Hosts p.id := by
          refine ⟨hinv.keyed.used p hmem, fun q hq hid => ?_⟩
          rw [List.inj_on_of_nodup_map hinv.keyed.nodup hq hmem hid, hrole]
        exact hhosts.follows hf
    | storing request x others =>
        rcases hnew with ⟨body, context, rfl, hacc⟩ | ⟨others, ephemeral, nonce, hne, hmem, rfl⟩
        · have hhosts := hinv.exchanges _ _ (accepts_mem hacc)
          exact ⟨hhosts.follows hf,
            Opens.follows (Event.timely_confirm hok hacc) hf hhosts.used Bool.false_ne_true⟩
        · have hfits := hinv.tasks _ hmem
          refine ⟨hfits.1.follows hf, hfits.2.follows hf hfits.1.used ?_⟩
          match others with
          | none | some (_ :: _) => exact Bool.false_ne_true
          | some [] => exact absurd rfl hne
    | rejecting _ _ _ | stored _ _ | activating _ _ | expiring _ => trivial

theorem Follows.pending {p' : ClusterPeer} (hf : Follows ends links s s') (hp : p' ∈ s'.peers)
    (hid : p'.id < s.nextId) (h : p'.status = .pending) :
    ∃ p ∈ s.peers, p.id = p'.id ∧ p.status = .pending := by
  obtain ⟨p, hp, hpf⟩ := hf.old hp hid
  exact ⟨p, hp, hpf.id.symm, hpf.pending h⟩

/-- The entry a link is stored in was open, so none was stored in it before. -/
theorem Inv.activates_new (hinv : s.Inv) {request : ℕ} {x : ResponderHandshake}
    (ha : s.Activates event s' request x) :
    (s.peer x.peerRowId).any (openWindow s.now) = true ∧ ∀ y ∈ s.activations, y.row ≠ x.peerRowId := by
  have hopen : s.Opens x.peerRowId := (hinv.tasks _ ha.task).2
  obtain ⟨p, hp⟩ := Option.isSome_iff_exists.mp ha.row
  obtain ⟨hmem, hid⟩ := (peer_eq_some hinv.keyed).mp hp
  refine ⟨by rw [hp]; exact hopen p hmem hid, fun y hy hrow => ?_⟩
  exact hinv.done y hy p hmem (hid.trans hrow.symm) (openWindow_pending (hopen p hmem hid))

/-- **A timely event keeps the invariant.** -/
theorem Inv.step (hinv : s.Inv) (hok : event.timely s) (h : s.step env event = some s') : s'.Inv := by
  have hf := step_follows hinv.keyed h
  have hdone : ∀ x ∈ s.activations, ∀ p ∈ s'.peers, p.id = x.row → p.status ≠ .pending := by
    intro x hx p hp hid hpending
    obtain ⟨q, hq, hqid, hqp⟩ := hf.pending hp (hid ▸ hinv.used x hx) hpending
    exact hinv.done x hx q hq (hqid.trans hid) hqp
  have hused : ∀ x ∈ s.activations, x.row < s'.nextId :=
    fun x hx => Nat.lt_of_lt_of_le (hinv.used x hx) hf.nextId_le
  refine
    { keyed := hf.keyed hinv.keyed
      exchanges := fun i x hx => ?_
      tasks := fun task ht => hinv.step_fits hok h hf ht
      once := ?_
      inWindow := ?_
      used := ?_
      done := ?_ }
  · rcases step_exchanges h hx with hx | ⟨_, _, _, _, htask, p, hp, hid⟩
    · exact (hinv.exchanges i x hx).follows hf
    · rw [← hid]
      exact (hinv.tasks _ htask p hp).follows hf
  all_goals rcases step_activations h with heq | ⟨request, x, ha⟩
  · rw [heq]
    exact hinv.once
  · rw [ha.activations, List.map_cons, List.nodup_cons]
    refine ⟨fun hmem => ?_, hinv.once⟩
    obtain ⟨y, hy, hrow⟩ := List.mem_map.mp hmem
    exact (hinv.activates_new ha).2 y hy hrow
  · rw [heq]
    exact hinv.inWindow
  · rw [ha.activations]
    exact List.forall_mem_cons.mpr ⟨(hinv.activates_new ha).1, hinv.inWindow⟩
  · rw [heq]
    exact hused
  · rw [ha.activations]
    exact List.forall_mem_cons.mpr
      ⟨Nat.lt_of_lt_of_le (hinv.tasks _ ha.task).1.used hf.nextId_le, hused⟩
  · rw [heq]
    exact hdone
  · rw [ha.activations]
    refine List.forall_mem_cons.mpr ⟨fun p hp hid => ?_, hdone⟩
    rw [ha.active p hp hid]
    exact nofun

/-- An event that stores no link in an entry that is no longer pending leaves its link as it is. -/
theorem Inv.step_link (hinv : s.Inv) (h : s.step env event = some s') {p p' : ClusterPeer}
    (hp : p ∈ s.peers) (hrole : p.role = .host) (hstatus : p.status ≠ .pending) (hp' : p' ∈ s'.peers)
    (hid : p'.id = p.id) : p'.nodeId = p.nodeId ∧ p'.linkKey = p.linkKey := by
  obtain ⟨q, hq, hf⟩ := (step_follows hinv.keyed h).old hp' (hid ▸ hinv.keyed.used p hp)
  obtain rfl : q = p := List.inj_on_of_nodup_map hinv.keyed.nodup hq hp (hf.id.symm.trans hid)
  refine hf.link hrole fun hlinks => hstatus ?_
  obtain ⟨request, x, ephemeral, nonce, rfl, hrow⟩ := Event.stores_of_links hlinks
  obtain ⟨hmem, -⟩ := Option.ite_none_right_eq_some.mp h
  exact openWindow_pending ((hinv.tasks _ hmem).2 q hp hrow)

end Node

/-- **One invite admits one node.**  A started node, a run of timely events: each entry was given a
link by a confirmation at most once, while it was pending and within its window; and no further
event changes the node id or the link key of an entry that is no longer pending. -/
theorem invite_admits_one (env : Env) {s₀ s : Node} {events : List Event} (h₀ : s₀.Started)
    (hok : Meets (Node.step env) (fun s event => event.timely s) s₀ events)
    (h : run (Node.step env) s₀ events = some s) :
    (s.activations.map (·.row)).Nodup ∧ (∀ x ∈ s.activations, x.inWindow) ∧
      ∀ event s', s.step env event = some s' →
        ∀ p ∈ s.peers, p.role = .host → p.status ≠ .pending →
          ∀ p' ∈ s'.peers, p'.id = p.id → p'.nodeId = p.nodeId ∧ p'.linkKey = p.linkKey := by
  have hinv : s.Inv :=
    run_invariant_of_meets (fun _ _ _ hinv hok h => Node.Inv.step hinv hok h) h₀.inv hok h
  exact ⟨hinv.once, hinv.inWindow, fun event s' h p hp hrole hstatus p' hp' hid =>
    hinv.step_link h hp hrole hstatus hp' hid⟩

section
/-- Primitives that hide nothing. -/
def openPrimitives : Primitives where
  normalize s := s
  sha256 bytes := bytes
  hmac key data := key ++ data
  hkdf ikm salt _ := ikm ++ salt
  scrypt password salt := password ++ salt
  publicKey a := List.replicate a 1
  sharedSecret a key := some (List.replicate (a * key.length) 1)

def inviter : Env where
  crypto := openPrimitives
  nodeId := "host"
  nodeName := "h"
  pin := none
  pairingMaxFailures := 5
  usableAddress _ addr := some addr

/-- The inviting node, with one invite. -/
def inviting : Node where
  now := 0
  peers := [PendingPeer.row ⟨.host, "", "", "code", none, none, 900000, none, none, false⟩ 0]
  nextId := 1
  responderHandshakes _ := none
  tasks := []
  answers := []
  activations := []

theorem inviting_started : inviting.Started :=
  ⟨⟨by decide, by decide⟩, fun _ => rfl, rfl, rfl⟩

/-- What a node with the code sends first. -/
def initFrom (node : String) : PairInitBody :=
  let body : PairInitBody := ⟨2, node, node, node, [], [1, 1], [], []⟩
  let psk := derivePairingPsk openPrimitives "code" body.salt
  { body with mac := pairInitMac openPrimitives psk (initOf inviter body none) }

/-- The exchange with it that the inviting node holds. -/
def exchangeWith (node : String) : ResponderHandshake :=
  let body := initFrom node
  let keys := pairKeys openPrimitives (derivePairingPsk openPrimitives "code" []) [1, 1, 1, 1, 1, 1]
    (initOf inviter body none) ⟨"host", "h", [1, 1, 1], []⟩
  ⟨0, node, node, node, keys.linkKey, keys.confirmInitiator, 120000, none⟩

def begins (node : String) : List Event :=
  [.pairInit 0 (initFrom node) .plain,
    .resume (.deriveKeys 0 (initFrom node) none inviting.peers) 3 []]

def confirms (node : String) : List Event :=
  let h := exchangeWith node
  [.pairConfirm 1 ⟨node, h.confirmInitiator⟩ .plain, .resume (.storing 1 h none) 0 [],
    .resume (.storing 1 h (some [])) 0 [], .resume (.stored 1 h) 0 [],
    .resume (.activating 1 0) 0 []]

theorem invite_admits_one_first :
    ∃ s, run (Node.step inviter) inviting (begins "a" ++ confirms "a") = some s ∧
      (s.activations.map fun x => (x.row, x.nodeId)) = [(0, "a")] ∧
      (s.activations.map (·.row)).Nodup := by
  have hrun : ((run (Node.step inviter) inviting (begins "a" ++ confirms "a")).map
      fun s => s.activations.map fun x => (x.row, x.nodeId)) = some [(0, "a")] := by decide +kernel
  obtain ⟨s, hs, hact⟩ := Option.map_eq_some_iff.mp hrun
  exact ⟨s, hs, hact, (invite_admits_one inviter inviting_started (by decide +kernel) hs).1⟩

/-- Two nodes with the same code begin; the first is linked, and the second takes its place. -/
theorem invite_admits_two :
    inviting.Started ∧
      (run (Node.step inviter) inviting (begins "a" ++ begins "b" ++ confirms "a")).map
        (fun s => s.peers.map fun p => (p.id, p.status, p.nodeId)) = some [(0, .active, some "a")] ∧
      (run (Node.step inviter) inviting (begins "a" ++ begins "b" ++ confirms "a" ++ confirms "b")).map
        (fun s => (s.peers.map fun p => (p.id, p.status, p.nodeId),
          s.activations.map fun x => (x.row, x.inWindow))) =
        some ([(0, .active, some "b")], [(0, false), (0, true)]) :=
  ⟨inviting_started, by decide +kernel, by decide +kernel⟩

end

end Pokyh.Cluster.Pairing

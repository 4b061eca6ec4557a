import Pokyh.Cluster.Parking
import Pokyh.Cluster.Retries
import Pokyh.Lib.Results
import Mathlib.Data.Prod.Lex

/-!
# Cluster — Duplicates

Whether a change that is set aside because of unique values is ever settled.  A duplicate is resolved in one transaction,
against one other row: where that loses, it is removed and the change is written, and if the database refuses the change
nothing has happened.

* `Resolvable`: whenever the pass comes to the change, the database refuses it for nothing but a unique value, and takes it
  once the row that loses against it is removed.
* `carefulPass_resolves`: such a change is settled, or waits for its second attempt.
* `duplicate_settled`: **after finitely many retries it is not set aside any more.**
* `duplicate_stuck`: an account whose two unique values are held by two others.
-/

namespace Pokyh.Cluster
open Pokyh.Lib

/-- The sender has nothing more, or is not waited for. -/
def Drained (node : Node) (m : Moment) (row : DeferredRow) : Prop :=
  m.now - row.firstSeenAt > node.deferredMaxAgeMs ∨
    ∀ peer ∈ m.peers.find? (fun peer => peer.1 = row.fromPeer), ∃ at' ∈ peer.2, row.firstSeenAt < at'

/-- The database refuses the change for nothing but a unique value. -/
def OnlyClashes (S : Schema) (db : Database) (item : WorkItem) : Prop :=
  findCollision db item = none → ∃ db', writeRow S db item (db.selectRow item.id).isSome = .ok db'

/-- The other row is removed, and that is recorded. -/
def withoutOther (node : Node) (db : Database) (item : WorkItem) (otherKey : List String) : Database :=
  let otherId : RowId := ⟨item.table.name, otherKey⟩
  let otherVersion := ((db.readVersion item.table.name (node.computePkHash otherKey)).map RowVersion.version).getD 0
  (if (db.selectRow otherId).isSome then deleteRow node.schema db otherId else db).writeVersion item.table.name
    (node.computePkHash otherKey) otherKey (otherVersion + 1) node.nodeId true none

/-- The change loses, or can be written without the other row. -/
def Yields (node : Node) (db : Database) (item : WorkItem) (otherKey : List String) : Prop :=
  incomingWins db item otherKey (node.computePkHash otherKey) = true →
    ∃ db', writeRow node.schema (withoutOther node db item otherKey) item (db.selectRow item.id).isSome = .ok db'

/-- What a colliding change is resolved in and against, unless it is applied with a group. -/
def duel (node : Node) (env : Surroundings) (p : Pass) (entry : WorkItem) : Option (Database × List String) :=
  match (attempt node.schema (env.at' .colliding entry).fault p.db entry).1 with
  | .conflict index otherKey =>
      let g := collectGroup node p entry (index, otherKey)
      if g.closed ∧ g.members.length > 1 then
        match applyGroup node.schema (env.at' .group entry).fault env.draws p.db g.members with
        | (true, _) => none
        | (false, db) => some (db, g.blocker.2)
      else some (p.db, g.blocker.2)
  | _ => none

/-- Whenever a pass comes to the change. -/
structure Resolvable (node : Node) (env : Surroundings) (db : Database) (ordered : List WorkItem) (x : WorkItem) :
    Prop where
  first : ∀ done rest, ordered = done ++ x :: rest →
    OnlyClashes node.schema (done.foldl (firstRound node env) ⟨db, [], [], [], []⟩).db x
  colliding : ∀ done rest, (afterSecond node env db ordered).colliding = done ++ x :: rest →
    OnlyClashes node.schema (done.foldl (collide node env) (afterSecond node env db ordered)).db x ∧
      ∀ d ∈ duel node env (done.foldl (collide node env) (afterSecond node env db ordered)) x, Yields node d.1 x d.2

variable {node : Node} {env : Surroundings} {S : Schema} {db db' : Database} {store : Store} {p : Pass}
  {item x : WorkItem} {items : List WorkItem} {key : String × String} {row row' : DeferredRow} {r : Retry}
  {fault : Option ℕ} {otherKey : List String}

/-! ### One attempt, one resolution -/

theorem senderHasNothingMore_iff {m : Moment} {attempts : ℕ} (hd : item.deferred = some ⟨attempts, row.firstSeenAt⟩)
    (hfrom : item.fromPeer = row.fromPeer) :
    senderHasNothingMore node m item = true ↔ 2 ≤ attempts ∧ Drained node m row := by
  simp only [senderHasNothingMore, hd, hfrom, Drained]
  by_cases hattempts : attempts < 2
  · simp [hattempts]
  · simp only [hattempts, if_false, not_lt.mp hattempts, true_and]
    by_cases hage : m.now - row.firstSeenAt > node.deferredMaxAgeMs
    · simp [hage]
    · simp only [hage, if_false, false_or]
      cases m.peers.find? fun peer => peer.1 = row.fromPeer with
      | none => simp
      | some peer => simp [Option.any_eq_true]

/-- A change that only clashes is applied, or stale, or collides. -/
theorem attempt_of_onlyClashes (hfault : fault = none) (h : OnlyClashes S db item) :
    (attempt S fault db item).1 = .applied ∨ (attempt S fault db item).1 = .stale ∨
      ∃ index otherKey, (attempt S fault db item).1 = .conflict index otherKey := by
  subst hfault
  simp only [attempt, attemptWithin]
  split
  · exact .inr (.inl rfl)
  · split
    · next index otherKey _ => exact .inr (.inr ⟨index, otherKey, rfl⟩)
    · next hnone =>
      obtain ⟨db', hwrite⟩ := h hnone
      exact .inl (by simp only [hwrite])

theorem newer_of_conflict {index : UniqueIndex} (h : (attempt S fault db item).1 = .conflict index otherKey) :
    isNewer item.rowVersion (db.readVersion item.table.name item.hash) = true := by
  by_contra hnot
  cases fault with
  | some code =>
      simp only [attempt, classifyWriteError] at h
      split_ifs at h
  | none =>
      simp only [attempt, attemptWithin, Bool.not_eq_true _ |>.mp hnot] at h
      cases h

/-- A duplicate that yields is resolved. -/
theorem resolveDuplicate_of_yields (hfault : fault = none)
    (hnew : isNewer item.rowVersion (db.readVersion item.table.name item.hash) = true) (h : Yields node db item otherKey) :
    (resolveDuplicate node fault db item otherKey).1 = true := by
  subst hfault
  simp only [resolveDuplicate, hnew, Option.isSome_none, Bool.not_true, Bool.false_eq_true, if_false]
  split
  · rfl
  · next hwins =>
    obtain ⟨db', hwrite⟩ := h (by simpa using hwins)
    simp only [withoutOther] at hwrite
    simp only [hwrite]

theorem applyGroup_registry {draws : Draws} {group : List WorkItem}
    (h : applyGroup S fault draws db group = (false, db')) : db'.registry = db.registry := by
  rcases applyGroup_cases S fault draws db group with hback | ⟨-, -, ⟨db₁, hpark, hstop⟩ | ⟨_, _, _, _, happlied⟩⟩
  · rw [h] at hback
    cases hback
    rfl
  · rw [h] at hstop
    cases hstop
    exact parkGroup_registry hpark
  · rw [h] at happlied
    cases happlied

/-! ### A change in a pass -/

/-- It is settled, or may have its turn among the colliding ones. -/
def IsSettled (p : Pass) (x : WorkItem) : Prop := (x, .a) ∈ p.results ∨ (x, .s) ∈ p.results

/-- It waits for nothing but a unique value. -/
def WaitsUnique (p : Pass) (x : WorkItem) : Prop := ∀ w ∈ p.waiting, w.item = x → w.reason = .unique

theorem IsSettled.retains {p' : Pass} (h : IsSettled p x) (hk : Retains p p') : IsSettled p' x :=
  h.imp (hk.results _) (hk.results _)

theorem firstRound_resolves (hfault : (env.at' .first item).fault = none)
    (h : item = x → OnlyClashes node.schema p.db x) (hwaits : WaitsUnique p x) :
    WaitsUnique (firstRound node env p item) x ∧
      (item = x → IsSettled (firstRound node env p item) x ∨ x ∈ (firstRound node env p item).colliding) := by
  by_cases hitem : item = x
  · subst hitem
    rcases attempt_of_onlyClashes hfault (h rfl) with hout | hout | ⟨index, otherKey, hout⟩
    · simp only [firstRound, hout]
      exact ⟨hwaits, fun _ => .inl (.inl (by simp [Pass.settle]))⟩
    · simp only [firstRound, hout]
      exact ⟨hwaits, fun _ => .inl (.inr (by simp [Pass.settle]))⟩
    · simp only [firstRound, hout]
      exact ⟨hwaits, fun _ => .inr (by simp [Pass.clash])⟩
  · refine ⟨fun w hw heq => ?_, fun h => absurd h hitem⟩
    rcases firstRound_waiting node env p item with hsame | ⟨reason, hmore⟩
    · exact hwaits w (hsame ▸ hw) heq
    · rw [hmore] at hw
      rcases List.mem_append.mp hw with hold | hnew
      · exact hwaits w hold heq
      · rw [List.mem_singleton.mp hnew] at heq
        exact absurd heq hitem

theorem secondRound_resolves {entry : Waiting} (hwaits : WaitsUnique p x) (h : IsSettled p x ∨ x ∈ p.colliding) :
    WaitsUnique (secondRound node env p entry) x ∧
      (IsSettled (secondRound node env p entry) x ∨ x ∈ (secondRound node env p entry).colliding) := by
  refine ⟨fun w hw => hwaits w (secondRound_waiting_subset hw), ?_⟩
  have hkept : (∀ e ∈ p.results, e ∈ (secondRound node env p entry).results) ∧
      ∀ i ∈ p.colliding, i ∈ (secondRound node env p entry).colliding := by
    simp only [secondRound]
    split
    · exact ⟨fun _ => id, fun _ => id⟩
    · split
      · exact ⟨fun _ h => List.mem_append_left _ h, fun _ => id⟩
      · exact ⟨fun _ h => List.mem_append_left _ h, fun _ => id⟩
      · exact ⟨fun _ => id, fun _ h => List.mem_append_left _ h⟩
      · exact ⟨fun _ => id, fun _ => id⟩
      · exact ⟨fun _ => id, fun _ => id⟩
  exact h.imp (fun hs => hs.imp (hkept.1 _) (hkept.1 _)) (hkept.2 x)

theorem settleAlone_resolves {blocker : UniqueIndex × List String} {attempts : ℕ}
    (hfault : (env.at' .duplicate x).fault = none) (hd : x.deferred = some ⟨attempts, row.firstSeenAt⟩)
    (hfrom : x.fromPeer = row.fromPeer) (hdrained : Drained node (env.at' .colliding x) row)
    (hnew : isNewer x.rowVersion (p.db.readVersion x.table.name x.hash) = true) (hyields : Yields node p.db x blocker.2) :
    IsSettled (settleAlone node env p x blocker) x ∨
      attempts < 2 ∧ ⟨x, .unique⟩ ∈ (settleAlone node env p x blocker).waiting := by
  have hresolved := resolveDuplicate_of_yields hfault hnew hyields
  simp only [settleAlone]
  split
  · split
    · exact .inl (.inl (by simp [Pass.settle]))
    · next db' hresult =>
      rw [show (p.handle [x]).db = p.db from rfl] at hresult
      rw [hresult] at hresolved
      cases hresolved
  · next hmore =>
    refine .inr ⟨?_, by simp [Pass.wait]⟩
    by_contra hattempts
    exact hmore ((senderHasNothingMore_iff hd hfrom).mpr ⟨not_lt.mp hattempts, hdrained⟩)

theorem settleAlone_waitsUnique {blocker : UniqueIndex × List String} {entry : WorkItem} (h : WaitsUnique p x) :
    WaitsUnique (settleAlone node env p entry blocker) x := by
  intro w hw heq
  rcases @settleAlone_waiting node env p entry blocker with hsame | hmore
  · exact h w (hsame ▸ hw) heq
  · rw [hmore] at hw
    rcases List.mem_append.mp hw with hold | hnew
    · exact h w hold heq
    · rw [List.mem_singleton.mp hnew]

/-- Whoever is handled without having had its turn was applied with a group. -/
def HandledApplied (done : List WorkItem) (p : Pass) : Prop := ∀ h ∈ p.handled, h ∈ done ∨ (h, .a) ∈ p.results

theorem collide_handledApplied {done : List WorkItem} {entry : WorkItem} (h : HandledApplied done p) :
    HandledApplied (done ++ [entry]) (collide node env p entry) := by
  have hretains := collide_retains node env p entry
  intro y hy
  by_cases hold : y ∈ p.handled
  · exact (h y hold).imp (List.mem_append_left _) (hretains.results _)
  by_cases hentry : y = entry
  · exact .inl (by simp [hentry])
  right
  simp only [collide] at hy ⊢
  split
  · next hmem =>
    rw [if_pos hmem] at hy
    exact absurd hy hold
  · next hmem =>
    rw [if_neg hmem] at hy
    have halone : ∀ (q : Pass) (blocker : UniqueIndex × List String), q.handled = p.handled →
        y ∉ (settleAlone node env q entry blocker).handled := by
      intro q blocker hq
      simp [settleAlone_handled, hq, hold, hentry]
    split at hy
    · simp [Pass.settle, Pass.handle, Pass.store, hold, hentry] at hy
    · simp [Pass.settle, Pass.handle, Pass.store, hold, hentry] at hy
    · simp [Pass.settle, Pass.handle, Pass.store, hold, hentry] at hy
    · simp [Pass.wait, Pass.handle, Pass.store, hold, hentry] at hy
    · next index otherKey hconflict =>
      split at hy
      · next hgroup =>
        split at hy
        · next db' happlied =>
          simp only [if_pos hgroup]
          have hmember := (List.mem_append.mp hy).resolve_left hold
          exact List.mem_append_right _ (List.mem_map.mpr ⟨y, hmember, rfl⟩)
        · exact absurd hy (halone _ _ rfl)
      · exact absurd hy (halone _ _ rfl)

theorem collide_waitsUnique {entry : WorkItem} (hfault : (env.at' .colliding entry).fault = none)
    (h : entry = x → OnlyClashes node.schema p.db x) (hwaits : WaitsUnique p x) :
    WaitsUnique (collide node env p entry) x := by
  intro w hw heq
  rcases @collide_waiting node env p entry with hsame | hunique | ⟨reason, hdefer, hmore, -⟩
  · exact hwaits w (hsame ▸ hw) heq
  · rw [hunique] at hw
    rcases List.mem_append.mp hw with hold | hnew
    · exact hwaits w hold heq
    · rw [List.mem_singleton.mp hnew]
  · rw [hmore] at hw
    rcases List.mem_append.mp hw with hold | hnew
    · exact hwaits w hold heq
    · -- a change that only clashes is not put off
      rw [List.mem_singleton.mp hnew] at heq
      obtain rfl : entry = x := heq
      rcases attempt_of_onlyClashes hfault (h rfl) with hout | hout | ⟨_, _, hout⟩ <;> simp [hout] at hdefer

/-- Its turn among the colliding ones. -/
theorem collide_resolves {attempts : ℕ} (hfault : ∀ phase item, (env.at' phase item).fault = none)
    (hd : x.deferred = some ⟨attempts, row.firstSeenAt⟩) (hfrom : x.fromPeer = row.fromPeer)
    (hdrained : Drained node (env.at' .colliding x) row) (hclash : OnlyClashes node.schema p.db x)
    (hyields : ∀ d ∈ duel node env p x, Yields node d.1 x d.2) (hhandled : x ∈ p.handled → (x, .a) ∈ p.results) :
    IsSettled (collide node env p x) x ∨ attempts < 2 ∧ ⟨x, .unique⟩ ∈ (collide node env p x).waiting := by
  by_cases hmem : x ∈ p.handled
  · exact .inl (.inl ((collide_retains node env p x).results _ (hhandled hmem)))
  rcases attempt_of_onlyClashes (hfault .colliding x) hclash with hout | hout | ⟨index, otherKey, hout⟩
  · simp only [collide, if_neg hmem, hout]
    exact .inl (.inl (by simp [Pass.settle]))
  · simp only [collide, if_neg hmem, hout]
    exact .inl (.inr (by simp [Pass.settle]))
  · have hnew := newer_of_conflict hout
    have hdb : (attempt node.schema (env.at' .colliding x).fault p.db x).2 = p.db :=
      (attempt_conflict (Prod.ext hout rfl)).1
    have hsame : p.store p.db = p := rfl
    simp only [duel, hout] at hyields
    simp only [collide, if_neg hmem, hout, hdb, hsame]
    split
    · next hgroup =>
      rw [if_pos hgroup] at hyields
      split
      · exact .inl (.inl (List.mem_append_right _ (List.mem_map.mpr ⟨x, entry_mem_collectGroup, rfl⟩)))
      · next db' hstop =>
        simp only [hstop, Option.mem_def, Option.some.injEq, forall_eq'] at hyields
        have hread : db'.readVersion x.table.name x.hash = p.db.readVersion x.table.name x.hash :=
          Database.readVersion_congr (applyGroup_registry hstop) _ _
        exact settleAlone_resolves (hfault _ _) hd hfrom hdrained ((congrArg (isNewer _) hread).trans hnew) hyields
    · next hgroup =>
      simp only [if_neg hgroup, Option.mem_def, Option.some.injEq, forall_eq'] at hyields
      exact settleAlone_resolves (hfault _ _) hd hfrom hdrained hnew hyields

theorem afterFirst_resolves (hfault : ∀ phase item, (env.at' phase item).fault = none) (hx : x ∈ items)
    (h : Resolvable node env db items x) : WaitsUnique (afterFirst node env db items) x ∧
      (IsSettled (afterFirst node env db items) x ∨ x ∈ (afterFirst node env db items).colliding) := by
  have hloop : WaitsUnique (afterFirst node env db items) x ∧ (x ∈ items →
      IsSettled (afterFirst node env db items) x ∨ x ∈ (afterFirst node env db items).colliding) := by
    refine foldl_splits (f := firstRound node env) (P := fun done (p : Pass) =>
      WaitsUnique p x ∧ (x ∈ done → IsSettled p x ∨ x ∈ p.colliding)) (by simp [WaitsUnique]) ?_
    intro done item rest hl hdone
    obtain ⟨hwaits', hturn⟩ := firstRound_resolves (hfault .first item) (fun heq => h.first done rest (heq ▸ hl)) hdone.1
    refine ⟨hwaits', fun hmem => ?_⟩
    rcases List.mem_append.mp hmem with hold | hnew
    · have hretains := firstRound_retains node env (done.foldl (firstRound node env) ⟨db, [], [], [], []⟩) item
      exact (hdone.2 hold).imp (fun hs => hs.retains hretains) (hretains.colliding x)
    · exact hturn (List.mem_singleton.mp hnew).symm
  exact ⟨hloop.1, hloop.2 hx⟩

theorem afterSecond_resolves (hfault : ∀ phase item, (env.at' phase item).fault = none) (hx : x ∈ items)
    (h : Resolvable node env db items x) : WaitsUnique (afterSecond node env db items) x ∧
      (IsSettled (afterSecond node env db items) x ∨ x ∈ (afterSecond node env db items).colliding) :=
  foldl_invariant (f := secondRound node env) (P := fun p : Pass => WaitsUnique p x ∧ (IsSettled p x ∨ x ∈ p.colliding))
    (fun _ _ _ hp => secondRound_resolves hp.1 hp.2) (afterFirst_resolves hfault hx h)

/-- **A change that can be resolved** is settled in a pass, or has been tried less than twice and waits for a unique
value. -/
theorem carefulPass_resolves {attempts : ℕ} (hfault : ∀ phase item, (env.at' phase item).fault = none) (hx : x ∈ items)
    (hd : x.deferred = some ⟨attempts, row.firstSeenAt⟩) (hfrom : x.fromPeer = row.fromPeer)
    (hdrained : Drained node (env.at' .colliding x) row) (h : Resolvable node env db items x) :
    WaitsUnique (carefulPass node env db items) x ∧ (IsSettled (carefulPass node env db items) x ∨
      attempts < 2 ∧ ⟨x, .unique⟩ ∈ (carefulPass node env db items).waiting) := by
  obtain ⟨hwaits, hsecond⟩ := afterSecond_resolves hfault hx h
  -- the colliding ones in their order; `done` are those that have had their turn
  have hloop : (HandledApplied (afterSecond node env db items).colliding (carefulPass node env db items) ∧
      WaitsUnique (carefulPass node env db items) x) ∧
      Retains (afterSecond node env db items) (carefulPass node env db items) ∧
      (x ∈ (afterSecond node env db items).colliding → IsSettled (carefulPass node env db items) x ∨
        attempts < 2 ∧ ⟨x, .unique⟩ ∈ (carefulPass node env db items).waiting) := by
    refine foldl_splits (f := collide node env) (P := fun done (p : Pass) => (HandledApplied done p ∧ WaitsUnique p x) ∧
      Retains (afterSecond node env db items) p ∧ (x ∈ done → IsSettled p x ∨ attempts < 2 ∧ ⟨x, .unique⟩ ∈ p.waiting))
      ⟨⟨fun y hy => ?_, hwaits⟩, .refl _, by simp⟩ ?_
    · rw [afterSecond_handled] at hy
      cases hy
    · rintro done entry rest hl ⟨⟨happlied, hwaits⟩, hkeep, hdone⟩
      have hretains := collide_retains node env (done.foldl (collide node env) (afterSecond node env db items)) entry
      have hclash : entry = x → OnlyClashes node.schema
          (done.foldl (collide node env) (afterSecond node env db items)).db x := by
        rintro rfl
        exact (h.colliding done rest hl).1
      have hwaits' := collide_waitsUnique (hfault .colliding entry) hclash hwaits
      refine ⟨⟨collide_handledApplied happlied, hwaits'⟩, hkeep.trans hretains, fun hmem => ?_⟩
      by_cases hold : x ∈ done
      · exact (hdone hold).imp (fun hs => hs.retains hretains) fun hw => ⟨hw.1, hretains.waiting _ hw.2⟩
      · obtain rfl := List.mem_singleton.mp ((List.mem_append.mp hmem).resolve_left hold)
        obtain ⟨hclash, hyields⟩ := h.colliding done rest hl
        exact collide_resolves hfault hd hfrom hdrained hclash hyields fun hx => (happlied x hx).resolve_left hold
  exact ⟨hloop.1.2, hsecond.elim (fun hs => .inl (hs.retains hloop.2.1)) hloop.2.2⟩

/-! ### Retries -/

/-- What must be so when a retry begins, as long as the change is set aside: nothing is failed, time has moved on, no change
has a value that its column refuses, and if this one is taken, it can be used and resolved. -/
structure Retry.Suits (r : Retry) (node : Node) (store : Store) (key : String × String) (row : DeferredRow) : Prop where
  faultless : r.Faultless
  later : r.Later store.deferred
  limit : 0 < r.limit
  acceptable : ∀ i ∈ r.items node store, Acceptable node.schema i
  taken : (key, row) ∈ retryRows r.limit store.deferred → ∃ x, retryItem node r.now (key, row) = some x ∧
    Resolvable node r.env store.db (orderItems (r.items node store)) x

/-- A retry that takes a change settles it, unless it was tried less than twice. -/
theorem retry_settles (hs : Faithful store.deferred) (hrow : store.deferred.lookup key = some row)
    (hsuits : r.Suits node store key row) (hmem : (key, row) ∈ retryRows r.limit store.deferred)
    (hx : retryItem node r.now (key, row) = some x) (hdrained : Drained node (r.env.at' .colliding x) row) :
    (r.done node store).store.deferred.lookup key = none ∧ Covered (r.done node store).store.db x ∨
      row.attempts < 2 ∧ Moved row (r.env.at' .settle x).now (fun reason => ⟨x, reason⟩ ∈ (r.pass node store).waiting)
        ((r.done node store).store.deferred.lookup key) := by
  obtain ⟨hb, hof, hd⟩ := retryItem_isOf hs hrow hx
  have hy : x ∈ r.items node store := List.mem_filterMap.mpr ⟨_, hmem, hx⟩
  obtain ⟨x', hx', hresolvable⟩ := hsuits.taken hmem
  obtain rfl : x = x' := Option.some_inj.mp (hx.symm.trans hx')
  obtain ⟨hwaits, hpass⟩ : WaitsUnique (r.pass node store) x ∧ (IsSettled (r.pass node store) x ∨
      row.attempts < 2 ∧ (⟨x, .unique⟩ : Waiting) ∈ (r.pass node store).waiting) :=
    carefulPass_resolves hsuits.faultless (mem_orderItems.mpr hy) hd hof.fromPeer hdrained hresolvable
  by_cases hsettled : IsSettled (r.pass node store) x
  · left
    have hinv : PassInv (orderItems (r.items node store)) store.db (r.pass node store) := by
      refine carefulPass_inv fun i hi => ?_
      obtain ⟨_, _, _, _, hb, _⟩ := mem_items hs (mem_orderItems.mp hi)
      exact hb
    obtain ⟨hmore, -⟩ := waited_moves hs hy hof hrow
    refine ⟨done_lookup_settled hs hy hof hrow (hsettled.imp (hmore _) (hmore _)), ?_⟩
    rw [(Retry.done_eq hs).1]
    rcases hsettled with h | h
    · exact (hinv.answered _ h).2.2 (.inl rfl)
    · exact (hinv.answered _ h).2.2 (.inr rfl)
  · obtain ⟨hattempts, hwait⟩ := hpass.resolve_left hsettled
    refine .inr ⟨hattempts, done_lookup_waiting hs hy hof hrow (fun hres => hsettled ?_) hwait⟩
    -- what waits for a unique value is not dropped as an orphan
    have hsource : ∀ e ∈ (r.waited node store).results, e ∈ (r.pass node store).results ∨
        e.2 = .d ∨ ∃ w ∈ (r.pass node store).waiting, w.item = e.1 ∧ w.reason = .fk := by
      refine foldl_invariant (f := settleWaiting node r.env) (P := fun g : Done => ∀ e ∈ g.results,
        e ∈ (r.pass node store).results ∨ e.2 = .d ∨ ∃ w ∈ (r.pass node store).waiting, w.item = e.1 ∧ w.reason = .fk)
        (fun g w hw hg e he => ?_) fun e he => .inl he
      simp only [settleWaiting] at he
      split at he
      · next horphan =>
        rcases List.mem_append.mp he with hold | hnew
        · exact hg e hold
        · exact .inr (.inr ⟨w, hw, by rw [List.mem_singleton.mp hnew], horphan.1⟩)
      · rcases List.mem_append.mp he with hold | hnew
        · exact hg e hold
        · exact .inr (.inl (by rw [List.mem_singleton.mp hnew]))
    have hunique : ∀ result, result ≠ ItemResult.d → (x, result) ∈ (r.waited node store).results →
        (x, result) ∈ (r.pass node store).results := by
      intro result hne hmem'
      rcases hsource _ hmem' with h | h | ⟨w, hw, hitem, hreason⟩
      · exact h
      · exact absurd h hne
      · rw [hwaits w hw hitem] at hreason
        cases hreason
    exact hres.imp (hunique _ (by simp)) (hunique _ (by simp))

/-- The store after so many retries, with nothing else in between. -/
def retried (node : Node) (retries : ℕ → Retry) (store : Store) : ℕ → Store
  | 0 => store
  | n + 1 => ((retries n).done node (retried node retries store n)).store

/-- How much is to come: attempts, and then turns of others. -/
def toCome (key : String × String) (store : Store) : ℕ ×ₗ ℕ :=
  match store.deferred.lookup key with
  | none => toLex (0, 0)
  | some row => toLex (2 - row.attempts, (ahead store.deferred row.lastTriedAt).card)

/-- **A duplicate that can be resolved is settled.**  After finitely many retries the change is not set aside any more, and
its version or a newer one is recorded. -/
theorem duplicate_settled (node : Node) (retries : ℕ → Retry) (store : Store) (key : String × String) (row : DeferredRow)
    (x : WorkItem) (hf : Faithful store.deferred) (hrow : store.deferred.lookup key = some row)
    (hx : retryItem node (retries 0).now (key, row) = some x)
    (hdrained : ∀ n item, Drained node ((retries n).env.at' .colliding item) row)
    (hsuits : ∀ n row', (retried node retries store n).deferred.lookup key = some row' →
      (retries n).Suits node (retried node retries store n) key row') :
    ∃ n, (retried node retries store n).deferred.lookup key = none ∧ Covered (retried node retries store n).db x := by
  refine eventually_of_decreasing (I := fun s : Store => Faithful s.deferred ∧
    ∃ row', s.deferred.lookup key = some row' ∧ SameChange row row')
    (P := fun s : Store => s.deferred.lookup key = none ∧ Covered s.db x) (toCome key) ⟨hf, row, hrow, .refl row⟩ ?_
  rintro n ⟨hfaithful, row', hrow', hsame⟩
  have hsuit := hsuits n row' hrow'
  have hnext : retried node retries store (n + 1) = ((retries n).done node (retried node retries store n)).store := rfl
  have hkept := faithful_done hfaithful hsuit.faultless hsuit.acceptable
  rw [hnext]
  by_cases htaken : (key, row') ∈ retryRows (retries n).limit (retried node retries store n).deferred
  · obtain ⟨x', hx', -⟩ := hsuit.taken htaken
    have hdrained' : Drained node ((retries n).env.at' .colliding x') row' := by
      simpa only [Drained, hsame.firstSeenAt, hsame.fromPeer] using hdrained n x'
    rcases retry_settles hfaithful hrow' hsuit htaken hx' hdrained' with ⟨hnone, hcovered⟩ | ⟨hattempts, row'', hfound, hagain, -⟩
    · refine .inl ⟨hnone, ?_⟩
      have hsame' := retryItem_same hsame hx hx'
      rw [hsame'] at hcovered
      exact hcovered
    · refine .inr ⟨⟨hkept, row'', hfound, hsame.trans hagain.toSameChange⟩, ?_⟩
      simp only [toCome, hfound, hrow']
      refine Prod.Lex.toLex_lt_toLex.mpr (.inl ?_)
      have hmore := hagain.attempts
      show 2 - row''.attempts < 2 - row'.attempts
      omega
  · have hstays : ((retries n).done node (retried node retries store n)).store.deferred.lookup key = some row' := by
      refine (retryDeferred_other hfaithful fun row₁ hmem => ?_).trans hrow'
      have heq := Option.some_inj.mp ((mem_retryRows hmem).symm.trans hrow')
      exact htaken (heq ▸ hmem)
    refine .inr ⟨⟨hkept, row', hstays, hsame⟩, ?_⟩
    simp only [toCome, hstays, hrow']
    exact Prod.Lex.toLex_lt_toLex.mpr (.inr ⟨rfl, ahead_lt hfaithful hsuit.faultless hsuit.acceptable hsuit.later hsuit.limit
      hrow' htaken⟩)

theorem nothing_of_isEmpty {deferred : SetAside} (h : deferred.entries.isEmpty = true) : ∀ k, deferred.lookup k = none := by
  have hnil : deferred = ∅ := AList.ext (List.isEmpty_iff.mp h)
  rw [hnil]
  exact fun _ => rfl

/-- Where nothing is set aside, nothing is afterwards. -/
theorem retried_nothing {retries : ℕ → Retry} {m : ℕ} (h : ∀ k, (retried node retries store m).deferred.lookup k = none) :
    ∀ n, m ≤ n → ∀ k, (retried node retries store n).deferred.lookup k = none := by
  intro n hn
  induction n, hn using Nat.le_induction with
  | base => exact h
  | succ n _ ih =>
      intro k
      have hfaithful : Faithful (retried node retries store n).deferred := by
        intro k e he
        rw [ih k] at he
        cases he
      refine (retryDeferred_other hfaithful fun row hmem => ?_).trans (ih k)
      have hrow := mem_retryRows hmem
      rw [show (retried node retries store n).deferred.lookup k = none from ih k] at hrow
      cases hrow

/-! ### A change that is never settled -/

/-- The change is newer than what is known of its row, it collides, and it is resolved against none of the rows that it
collides with. -/
structure Stuck (node : Node) (db : Database) (x : WorkItem) : Prop where
  newer : isNewer x.rowVersion (db.readVersion x.table.name x.hash) = true
  collides : (findCollision db x).isSome
  unresolved : ∀ row ∈ x.row, ∀ index ∈ x.table.uniques, ∀ otherKey ∈ otherHolder db.rows x.id row index,
    (resolveDuplicate node none db x otherKey).1 = false

theorem resolveDuplicate_false (h : (resolveDuplicate node fault db item otherKey).1 = false) :
    resolveDuplicate node fault db item otherKey = (false, db) := by
  simp only [resolveDuplicate] at h ⊢
  split
  · rfl
  · next hfault =>
    rw [if_neg hfault] at h
    split
    · rfl
    · next hnew =>
      rw [if_neg hnew] at h
      split
      · next hwins =>
        rw [if_pos hwins] at h
        cases h
      · next hwins =>
        rw [if_neg hwins] at h
        split
        · rfl
        · next hwrite =>
          rw [hwrite] at h
          cases h

/-- A blocker of the change is a row that it collides with. -/
def Blocks (db : Database) (x : WorkItem) (otherKey : List String) : Prop :=
  ∃ row ∈ x.row, ∃ index ∈ x.table.uniques, otherHolder db.rows x.id row index = some otherKey

theorem blocks_of_findCollision {index : UniqueIndex} (h : findCollision db x = some (index, otherKey)) :
    Blocks db x otherKey := by
  simp only [findCollision] at h
  split at h
  · cases h
  · next row hrow =>
    obtain ⟨index', hmem, hother⟩ := List.exists_of_findSome?_eq_some h
    obtain ⟨otherKey', hholder, heq⟩ := Option.map_eq_some_iff.mp hother
    obtain ⟨rfl, rfl⟩ := Prod.mk.inj heq
    exact ⟨row, hrow, index', hmem, hholder⟩

/-- Where nothing else collides, the group is the change alone. -/
theorem collectGroup_alone {b : UniqueIndex × List String} (hcol : p.colliding = [x]) (hb : Blocks p.db x b.2) :
    (collectGroup node p x b).members = [x] ∧ Blocks p.db x (collectGroup node p x b).blocker.2 := by
  have hexamine : ∀ (g : Group), ∀ index ∈ x.table.uniques, g.members = [x] ∧ Blocks p.db x g.blocker.2 →
      (examineIndex node p x g index).members = [x] ∧ Blocks p.db x (examineIndex node p x g index).blocker.2 := by
    intro g index hindex hg
    simp only [examineIndex]
    split
    · exact hg
    split
    · exact hg
    next otherKey hother =>
    split
    · exact hg
    next hnot =>
    obtain ⟨row, hrow, hother⟩ := Option.bind_eq_some_iff.mp hother
    split
    · exact ⟨hg.1, row, hrow, index, hindex, hother⟩
    · next partner hpending =>
      -- a pending change of the other row would be the change itself
      obtain ⟨hmem, hkey⟩ := pendingOf_some hpending
      rw [hcol, List.mem_singleton] at hmem
      rw [hmem] at hkey
      refine absurd (List.any_eq_true.mpr ⟨x, by simp [hg.1], ?_⟩) hnot
      simpa using (Prod.mk.inj hkey).2
  have hgrow : ∀ fuel cursor (g : Group), g.members = [x] ∧ Blocks p.db x g.blocker.2 →
      (growGroup node p fuel cursor g).members = [x] ∧ Blocks p.db x (growGroup node p fuel cursor g).blocker.2 := by
    intro fuel
    induction fuel with
    | zero => exact fun _ _ h => h
    | succ fuel ih =>
        intro cursor g hg
        simp only [growGroup]
        split
        · exact hg
        split
        · exact hg
        next member hmember =>
        have hx : member = x := by simpa [hg.1] using List.mem_of_getElem? hmember
        subst hx
        exact ih _ _ (foldl_invariant (fun g' index hindex hg' => hexamine g' index hindex hg') hg)
  exact hgrow _ _ _ ⟨rfl, hb⟩

theorem carefulPass_stuck (hfault : ∀ phase item, (env.at' phase item).fault = none) (h : Stuck node db x) :
    carefulPass node env db [x] = ⟨db, [], [x], [⟨x, .unique⟩], [x]⟩ := by
  obtain ⟨⟨index, otherKey⟩, hcollision⟩ := Option.isSome_iff_exists.mp h.collides
  have hattempt : ∀ phase, attempt node.schema (env.at' phase x).fault db x = (.conflict index otherKey, db) := by
    intro phase
    simp [hfault, attempt, attemptWithin, h.newer, hcollision]
  have hsecond : afterSecond node env db [x] = ⟨db, [], [x], [], []⟩ := by
    simp [afterSecond, afterFirst, firstRound, hattempt, Pass.store, Pass.clash]
  obtain ⟨hmembers, row, hrow, index', hindex, hother⟩ := @collectGroup_alone node ⟨db, [], [x], [], []⟩ x (index, otherKey)
    rfl (blocks_of_findCollision hcollision)
  have hresolve := resolveDuplicate_false (h.unresolved row hrow index' hindex _ hother)
  have hpass : carefulPass node env db [x] = collide node env ⟨db, [], [x], [], []⟩ x := by
    show (afterSecond node env db [x]).colliding.foldl (collide node env) (afterSecond node env db [x]) = _
    rw [hsecond]
    rfl
  rw [hpass]
  simp only [collide, List.not_mem_nil, if_false, hattempt, Pass.store, hmembers, List.length_singleton, lt_irrefl, and_false]
  simp [settleAlone, hfault, Pass.handle, Pass.store, Pass.wait, hresolve]

/-- The only change that is set aside, and it is stuck. -/
structure OnlyStuck (node : Node) (key : String × String) (x : WorkItem) (row : DeferredRow) (db : Database)
    (store : Store) : Prop where
  db : store.db = db
  faithful : Faithful store.deferred
  only : ∀ k, k ≠ key → store.deferred.lookup k = none
  set : ∃ row', store.deferred.lookup key = some row' ∧ SameChange row row' ∧ row'.reason = .unique

theorem OnlyStuck.done (h : OnlyStuck node key x row db store) (hfault : r.Faultless) {now : ℕ}
    (hx : retryItem node now (key, row) = some x) (hstuck : Stuck node db x) :
    OnlyStuck node key x row db (r.done node store).store := by
  obtain ⟨hdb, hfaithful, honly, row', hrow', hsame, hreason⟩ := h
  have hrows : ∀ e ∈ retryRows r.limit store.deferred, e = (key, row') := by
    rintro ⟨k, row''⟩ hmem
    have hlookup : store.deferred.lookup k = some row'' := mem_retryRows hmem
    by_cases hk : k = key
    · subst hk
      rw [hrow', Option.some_inj] at hlookup
      rw [hlookup]
    · rw [honly k hk] at hlookup
      cases hlookup
  have hother : ∀ k, k ≠ key → (r.done node store).store.deferred.lookup k = none := by
    intro k hk
    refine (retryDeferred_other hfaithful fun row'' hmem => hk ?_).trans (honly k hk)
    exact congrArg Prod.fst (hrows _ hmem)
  suffices hkey : (r.pass node store).db = store.db ∧
      ∃ row'', (r.done node store).store.deferred.lookup key = some row'' ∧ SameChange row' row'' ∧ row''.reason = .unique by
    obtain ⟨hdb', row'', hrow'', hsame', hreason'⟩ := hkey
    refine ⟨((Retry.done_eq hfaithful).1.trans hdb').trans hdb, fun k found hfound => ?_, hother,
      row'', hrow'', hsame.trans hsame', hreason'⟩
    by_cases hk : k = key
    · subst hk
      rw [hrow'', Option.some_inj] at hfound
      subst hfound
      rw [hsame'.payload, hsame'.version, hsame'.origin]
      exact hfaithful _ _ hrow'
    · rw [hother k hk] at hfound
      cases hfound
  cases hlist : retryRows r.limit store.deferred with
  | nil =>
      have hitems : r.items node store = [] := by simp [Retry.items, hlist]
      refine ⟨by simp [Retry.pass, hitems, orderItems, carefulPass], row', ?_, .refl row', hreason⟩
      exact (retryDeferred_other hfaithful (by simp [hlist])).trans hrow'
  | cons e rest =>
      have hnodup := nodup_retryRows r.limit store.deferred
      rw [hlist] at hrows hnodup
      obtain rfl := hrows e List.mem_cons_self
      have hrest : rest = [] := by
        refine List.eq_nil_iff_forall_not_mem.mpr fun e he => ?_
        rw [hrows e (List.mem_cons_of_mem _ he)] at he
        exact (List.nodup_cons.mp hnodup).1 (List.mem_map_of_mem he)
      subst hrest
      obtain ⟨table, built, htable, hbuilt, -, -⟩ := retryItem_eq_some.mp hx
      obtain ⟨x', hx'⟩ : ∃ x', retryItem node r.now (key, row') = some x' :=
        ⟨_, retryItem_eq_some.mpr ⟨table, built, htable, by rwa [hsame.payload, hsame.fromPeer],
          fun hold => hold.2 hreason, rfl⟩⟩
      have hitems : r.items node store = [x'] := by simp [Retry.items, hlist, hx']
      have hstuck' : Stuck node store.db x' := by
        rw [retryItem_same hsame hx hx', hdb]
        exact ⟨hstuck.newer, hstuck.collides, hstuck.unresolved⟩
      have hpass : r.pass node store = ⟨store.db, [], [x'], [⟨x', .unique⟩], [x']⟩ := by
        rw [Retry.pass, hitems]
        exact carefulPass_stuck hfault hstuck'
      have hresults : (r.waited node store).results = [(x', .d)] := by
        simp [Retry.waited, hpass, settleWaiting]
      obtain ⟨-, hof, -⟩ := retryItem_isOf hfaithful hrow' hx'
      have hy : x' ∈ r.items node store := by simp [hitems]
      have hnot : ¬ ((x', ItemResult.a) ∈ (r.waited node store).results ∨
          (x', ItemResult.s) ∈ (r.waited node store).results) := by simp [hresults]
      have hwait : (⟨x', .unique⟩ : Waiting) ∈ (r.pass node store).waiting := by simp [hpass]
      obtain ⟨row'', hrow'', hagain, -, hwhy⟩ := done_lookup_waiting hfaithful hy hof hrow' hnot hwait
      refine ⟨by rw [hpass], row'', hrow'', hagain.toSameChange, ?_⟩
      simpa [hpass] using hwhy

/-- **A change that is stuck stays set aside** in every retry, if it is the only one. -/
theorem stuck_forever (retries : ℕ → Retry) (h : OnlyStuck node key x row store.db store)
    (hfault : ∀ n, (retries n).Faultless) {now : ℕ} (hx : retryItem node now (key, row) = some x)
    (hstuck : Stuck node store.db x) (n : ℕ) :
    ((retried node retries store n).deferred.lookup key).isSome := by
  have hall : OnlyStuck node key x row store.db (retried node retries store n) := by
    induction n with
    | zero => exact h
    | succ n ih => exact ih.done (hfault n) hx hstuck
  obtain ⟨row', hrow', -⟩ := hall.set
  simp [hrow']

/-! ### Two accounts -/

/-- `users`, by id, with its two unique values. -/
def users : TableInfo where
  name := "users"
  columns := ["id", "stable_uid", "username", "created_at"]
  pk := ["id"]
  codec := [⟨"id", .string⟩, ⟨"stable_uid", .string⟩, ⟨"username", .string⟩, ⟨"created_at", .datetime⟩]
  uniques := [⟨"users_stable_uid_key", ["stable_uid"]⟩, ⟨"users_username_key", ["username"]⟩]
  rank := 0
  createdAtColumn := some "created_at"
  fkColumns := []
  maxLength := [("id", 191), ("stable_uid", 191), ("username", 191)]

def userNode : Node where
  nodeId := "R"
  catalog := [users]
  schema := ⟨[], fun _ _ => none⟩
  computePkHash key := "#" ++ String.join key
  decodeValue
    | .datetime, .number text => some (.date (text.toList.foldl (fun time c => 10 * time + (c.toNat - '0'.toNat)) 0 : ℕ))
    | _, .string text => some (.string text)
    | _, _ => none
  deferredMaxAgeMs := 1000

def userRow (id stableUid username : String) (createdAt : ℤ) : Row :=
  [("id", .string id), ("stable_uid", .string stableUid), ("username", .string username), ("created_at", .date createdAt)]

/-- An account that peer `A` sent, created at 10, set aside since then and tried twice. -/
def sentUser (id stableUid username : String) : DeferredRow where
  fromPeer := "A"
  version := 7
  origin := "A"
  payload := ⟨users.columns, ⟨"#" ++ id, [id], 7, "A", false,
    some [.string id, .string stableUid, .string username, .number "10"]⟩⟩
  reason := .unique
  attempts := 2
  firstSeenAt := 10
  lastTriedAt := 20

/-- The accounts here were created at 20. -/
def userStore (rows : List (RowId × Row)) (row : DeferredRow) : Store where
  db := ⟨Table.ofList rows, ∅, 1⟩
  deferred := Table.ofList [(("users", row.payload.item.h), row)]

/-- One retry after the other; `A` has nothing more since time 20. -/
def userRetries (n : ℕ) : Retry := ⟨⟨fun _ _ => ⟨none, 30 + n, [("A", some 20)]⟩, fun _ _ _ => 0⟩, 30 + n, 200⟩

/-- Ben has the id of the account that is sent, and Anna its name. -/
def benAndAnna : List (RowId × Row) :=
  [(⟨"users", ["b"]⟩, userRow "b" "s1" "ben" 20), (⟨"users", ["a"]⟩, userRow "a" "s2" "anna" 20)]

theorem userStore_lookup {rows : List (RowId × Row)} {id stableUid username : String} {k : String × String} :
    (userStore rows (sentUser id stableUid username)).deferred.lookup k =
      if k = ("users", "#" ++ id) then some (sentUser id stableUid username) else none := by
  refine Table.lookup_insert_of.trans ?_
  rfl

theorem userStore_faithful {rows : List (RowId × Row)} {id stableUid username : String} :
    Faithful (userStore rows (sentUser id stableUid username)).deferred := by
  intro k e he
  rw [userStore_lookup] at he
  split at he
  · next hk =>
    cases he
    rw [hk]
    exact ⟨rfl, rfl, rfl⟩
  · cases he

theorem userRetries_drained {id stableUid username : String} (n : ℕ) (item : WorkItem) :
    Drained userNode ((userRetries n).env.at' .colliding item) (sentUser id stableUid username) :=
  .inr (by simp [userRetries, sentUser])

/-- Only Ben's id is that of the account that is sent. -/
def ben : List (RowId × Row) := [(⟨"users", ["b"]⟩, userRow "b" "s1" "ben" 20)]

/-- Ben's account is removed, and the older one stored. -/
theorem duplicate_settled_ben : ∃ x, retryItem userNode 30 (("users", "#x"), sentUser "x" "s1" "anna") = some x ∧
    (findCollision (userStore ben (sentUser "x" "s1" "anna")).db x).isSome ∧
      ∃ n, (retried userNode userRetries (userStore ben (sentUser "x" "s1" "anna")) n).deferred.lookup ("users", "#x") =
        none ∧ Covered (retried userNode userRetries (userStore ben (sentUser "x" "s1" "anna")) n).db x := by
  set store := userStore ben (sentUser "x" "s1" "anna") with hstore
  have hfacts : (retryItem userNode 30 (("users", "#x"), sentUser "x" "s1" "anna")).any (fun x =>
      orderItems ((userRetries 0).items userNode store) = [x] && (findCollision store.db x).isSome &&
        (afterSecond userNode (userRetries 0).env store.db [x]).colliding = [x] &&
        (findCollision (afterSecond userNode (userRetries 0).env store.db [x]).db x).isSome &&
        (duel userNode (userRetries 0).env (afterSecond userNode (userRetries 0).env store.db [x]) x).all fun d =>
          (writeRow userNode.schema (withoutOther userNode d.1 x d.2) x (d.1.selectRow x.id).isSome).toOption.isSome) =
        true := by
    decide +kernel
  have hdone : (retried userNode userRetries store 1).deferred.entries.isEmpty = true := by decide +kernel
  obtain ⟨x, hx, hfacts⟩ := (Option.any_eq_true _ _).mp hfacts
  simp only [Bool.and_eq_true, decide_eq_true_eq, Option.all_eq_true] at hfacts
  obtain ⟨⟨⟨⟨hitems, hcollides⟩, hcolliding⟩, hcollides'⟩, hyields⟩ := hfacts
  have honly : ∀ {db : Database}, (findCollision db x).isSome → OnlyClashes userNode.schema db x := by
    intro db hsome hnone
    rw [hnone] at hsome
    cases hsome
  have hresolvable : Resolvable userNode (userRetries 0).env store.db (orderItems ((userRetries 0).items userNode store)) x := by
    rw [hitems]
    have hfirst : ∀ done rest, [x] = done ++ x :: rest → done = [] := by
      intro done rest hsplit
      have hlength := congrArg List.length hsplit
      simp only [List.length_append, List.length_cons, List.length_nil] at hlength
      exact List.eq_nil_of_length_eq_zero (by omega)
    refine ⟨fun done rest hsplit => ?_, fun done rest hsplit => ?_⟩
    · rw [hfirst done rest hsplit]
      exact honly hcollides
    · rw [hfirst done rest (hcolliding ▸ hsplit)]
      refine ⟨honly hcollides', fun d hd _ => ?_⟩
      obtain ⟨db', hdb'⟩ := Option.isSome_iff_exists.mp (hyields d hd)
      exact ⟨db', toOption_eq_some.mp hdb'⟩
  have hempty : ∀ n k, (retried userNode userRetries store (n + 1)).deferred.lookup k = none :=
    fun n => retried_nothing (nothing_of_isEmpty hdone) (n + 1) (Nat.le_add_left 1 n)
  refine ⟨x, hx, hcollides, duplicate_settled userNode userRetries store _ (sentUser "x" "s1" "anna") x userStore_faithful
    (userStore_lookup.trans (if_pos rfl)) hx userRetries_drained fun n row' hrow' => ?_⟩
  cases n with
  | succ n =>
      rw [hempty n] at hrow'
      cases hrow'
  | zero =>
      have hrow : row' = sentUser "x" "s1" "anna" :=
        (Option.some_inj.mp ((userStore_lookup.trans (if_pos rfl)).symm.trans hrow')).symm
      refine ⟨fun _ _ => rfl, fun k e he item => ?_, by decide, fun i _ row _ code hvalue => ?_, fun _ => ?_⟩
      · have he : store.deferred.lookup k = some e := he
        rw [hstore, userStore_lookup] at he
        split at he
        · cases he
          show 20 < 30 + 0
          omega
        · cases he
      · rcases hvalue with hvalue | ⟨_, hvalue⟩ <;> cases hvalue
      · rw [hrow]
        exact ⟨x, hx, hresolvable⟩

/-- The account is older than both, so it wins against Ben's and is refused because of Anna's, again and again. -/
theorem duplicate_stuck : ∃ x, retryItem userNode 30 (("users", "#x"), sentUser "x" "s1" "anna") = some x ∧
    (findCollision (userStore benAndAnna (sentUser "x" "s1" "anna")).db x).isSome ∧
      (∀ n item, Drained userNode ((userRetries n).env.at' .colliding item) (sentUser "x" "s1" "anna")) ∧
      ∀ n, ((retried userNode userRetries (userStore benAndAnna (sentUser "x" "s1" "anna")) n).deferred.lookup
        ("users", "#x")).isSome := by
  have hstuck : (retryItem userNode 30 (("users", "#x"), sentUser "x" "s1" "anna")).any (fun x =>
      isNewer x.rowVersion ((userStore benAndAnna (sentUser "x" "s1" "anna")).db.readVersion x.table.name x.hash) &&
      (findCollision (userStore benAndAnna (sentUser "x" "s1" "anna")).db x).isSome &&
      x.row.all fun row => x.table.uniques.all fun index =>
        (otherHolder (userStore benAndAnna (sentUser "x" "s1" "anna")).db.rows x.id row index).all fun otherKey =>
          !(resolveDuplicate userNode none (userStore benAndAnna (sentUser "x" "s1" "anna")).db x otherKey).1) = true := by
    decide +kernel
  obtain ⟨x, hx, hstuck⟩ := (Option.any_eq_true _ _).mp hstuck
  simp only [Bool.and_eq_true, Option.all_eq_true, List.all_eq_true, Bool.not_eq_true'] at hstuck
  obtain ⟨⟨hnewer, hcollides⟩, hunresolved⟩ := hstuck
  refine ⟨x, hx, hcollides, userRetries_drained, stuck_forever userRetries ?_ (fun _ _ _ => rfl) hx
    ⟨hnewer, hcollides, hunresolved⟩⟩
  refine ⟨rfl, userStore_faithful, fun k hk => ?_, sentUser "x" "s1" "anna", ?_, .refl _, rfl⟩
  · exact userStore_lookup.trans (if_neg hk)
  · exact userStore_lookup.trans (if_pos rfl)

end Pokyh.Cluster

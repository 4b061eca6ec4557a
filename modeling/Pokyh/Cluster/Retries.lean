import Pokyh.Cluster.Orphans
import Pokyh.Cluster.Responsibility
import Mathlib.Data.Finset.Card

/-!
# Cluster — Retries

What a retry leaves of the changes that are set aside (`retryDeferred`).  It takes those that were tried longest ago, so
that a change that it does not take comes closer to its turn, as long as every one that it takes leaves its place.

* `Calm`, `Acceptable`: a retry in which no transaction is failed, and changes without a value that their column refuses.
* `retryDeferred_other`, `retryDeferred_taken`: a change that is not taken stays as it is; one that is taken is settled or
  set aside again, later.
* `ahead_lt`: the changes ahead of one that is not taken get fewer.
-/

namespace Pokyh.Cluster
open Pokyh.Lib

/-- What a retry meets, when it begins, and how many changes it takes at most. -/
structure Retry where
  env : Surroundings
  now : ℕ
  limit : ℕ

def Retry.done (r : Retry) (node : Node) (store : Store) : Done := retryDeferred node r.env r.now r.limit store

/-- The changes that a retry takes. -/
def Retry.items (r : Retry) (node : Node) (store : Store) : List WorkItem :=
  (retryRows r.limit store.deferred).filterMap (retryItem node r.now)

/-- The database fails no transaction of the retry. -/
def Retry.Faultless (r : Retry) : Prop := ∀ phase item, (r.env.at' phase item).fault = none

/-- It goes on after everything that is set aside was last tried. -/
def Retry.Later (r : Retry) (deferred : SetAside) : Prop :=
  ∀ key row, deferred.lookup key = some row → ∀ item, row.lastTriedAt < (r.env.at' .settle item).now

/-- No column refuses a value of the change. -/
def Acceptable (S : Schema) (item : WorkItem) : Prop :=
  ∀ row ∈ item.row, ∀ code, (S.valueError item.table row = some code ∨
    ∃ old, S.valueError item.table (overwrite item.table old row) = some code) → classifyWriteError code ≠ .reject

/-- The same change, set aside since the same time. -/
structure SameChange (row row' : DeferredRow) : Prop where
  payload : row'.payload = row.payload
  fromPeer : row'.fromPeer = row.fromPeer
  version : row'.version = row.version
  origin : row'.origin = row.origin
  firstSeenAt : row'.firstSeenAt = row.firstSeenAt

/-- It has been tried once more. -/
structure Resaved (row row' : DeferredRow) : Prop extends SameChange row row' where
  attempts : row.attempts < row'.attempts

variable {node : Node} {env : Surroundings} {S : Schema} {db : Database} {deferred : SetAside} {store : Store} {p : Pass}
  {f : Done} {item x y : WorkItem} {items : List WorkItem} {key : String × String} {row row' : DeferredRow} {r : Retry}

theorem SameChange.refl (row : DeferredRow) : SameChange row row := ⟨rfl, rfl, rfl, rfl, rfl⟩

theorem SameChange.trans {row'' : DeferredRow} (h : SameChange row row') (h' : SameChange row' row'') : SameChange row row'' :=
  ⟨h'.payload.trans h.payload, h'.fromPeer.trans h.fromPeer, h'.version.trans h.version, h'.origin.trans h.origin,
    h'.firstSeenAt.trans h.firstSeenAt⟩

/-! ### The change of a row -/

/-- The item is the change that is set aside there. -/
structure IsOf (item : WorkItem) (key : String × String) (row : DeferredRow) : Prop where
  key : item.itemKey = key
  version : item.version = row.version
  origin : item.origin = row.origin
  wire : item.wire = row.payload
  fromPeer : item.fromPeer = row.fromPeer

theorem IsOf.same (h : IsOf item key row) (hs : SameChange row row') : IsOf item key row' :=
  ⟨h.key, by rw [h.version, hs.version], by rw [h.origin, hs.origin], by rw [h.wire, hs.payload],
    by rw [h.fromPeer, hs.fromPeer]⟩

theorem retryItem_eq_some {now : ℕ} : retryItem node now (key, row) = some item ↔
    ∃ table built, node.table? key.1 = some table ∧
      buildWorkItem node table row.payload.cols row.payload.item row.fromPeer = .ok built ∧
      ¬ (now - row.firstSeenAt > node.deferredMaxAgeMs ∧ row.reason ≠ .unique) ∧
      item = { built with deferred := some ⟨row.attempts, row.firstSeenAt⟩ } := by
  constructor
  · intro h
    simp only [retryItem] at h
    split at h
    · cases h
    next table htable =>
    split at h
    · cases h
    next built hbuilt =>
    split at h
    · cases h
    next hyoung => exact ⟨table, built, htable, hbuilt, hyoung, (Option.some_inj.mp h).symm⟩
  · rintro ⟨table, built, htable, hbuilt, hyoung, rfl⟩
    simp only [retryItem, htable, hbuilt, if_neg hyoung]

theorem retryItem_isOf {now : ℕ} (hs : Faithful deferred) (hrow : deferred.lookup key = some row)
    (h : retryItem node now (key, row) = some item) :
    Built node item ∧ IsOf item key row ∧ item.deferred = some ⟨row.attempts, row.firstSeenAt⟩ := by
  obtain ⟨hb, hkey, hversion⟩ := retryItem_some (hs key row hrow) h
  obtain ⟨hv, ho⟩ := RowVersion.mk.inj hversion
  obtain ⟨table, built, htable, hbuilt, -, rfl⟩ := retryItem_eq_some.mp h
  obtain ⟨-, -, hwire, hfrom, -⟩ := buildWorkItem_ok (by rwa [table?_name htable]) hbuilt
  exact ⟨hb, ⟨hkey, hv, ho, hwire, hfrom⟩, rfl⟩

/-- The same change gives the same item, but for how often it has been tried. -/
theorem retryItem_same {now now' : ℕ} (h : SameChange row row') (hx : retryItem node now (key, row) = some x)
    (hy : retryItem node now' (key, row') = some y) : y = { x with deferred := y.deferred } := by
  obtain ⟨table, built, htable, hbuilt, -, rfl⟩ := retryItem_eq_some.mp hx
  obtain ⟨table', built', htable', hbuilt', -, rfl⟩ := retryItem_eq_some.mp hy
  rw [h.payload, h.fromPeer] at hbuilt'
  obtain rfl := Option.some_inj.mp (htable.symm.trans htable')
  obtain rfl := Except.ok.inj (hbuilt.symm.trans hbuilt')
  rfl

/-! ### Every change is answered -/

theorem classifyWriteError_reject {code : ℕ} (h : classifyWriteError code = .reject) :
    code ∉ [dupEntry, noReferencedRow, rowIsReferenced] := by
  rintro hmem
  simp only [List.mem_cons, List.not_mem_nil, or_false] at hmem
  rcases hmem with rfl | rfl | rfl <;> simp [classifyWriteError, dupEntry, noReferencedRow, rowIsReferenced] at h

theorem storeError_some {table : TableInfo} {rows after : Table RowId Row} {id : RowId} {row : Row} {code : ℕ}
    (h : storeError S table rows after id row = some code) :
    S.valueError table row = some code ∨ code ∈ [dupEntry, noReferencedRow, rowIsReferenced] := by
  simp only [storeError] at h
  split at h
  · next hvalue =>
    cases h
    exact .inl hvalue
  · split at h
    · cases h
      exact .inr (by simp)
    · split at h
      · cases h
        exact .inr (by simp)
      · cases h

/-- Only a value can get a change rejected. -/
theorem writeRow_not_rejected {present : Bool} {code : ℕ} (ha : Acceptable S item)
    (h : writeRow S db item present = .error code) : classifyWriteError code ≠ .reject := by
  intro hreject
  have hnot := classifyWriteError_reject hreject
  cases hrow : item.row with
  | none => simp [writeRow, hrow] at h
  | some row =>
      have hvalue := ha row hrow code
      cases present with
      | false =>
          rw [writeRow_insert hrow] at h
          simp only [insertRow] at h
          split at h
          · cases h
            exact hnot (by simp)
          · split at h
            · next hstore =>
              cases h
              exact (storeError_some hstore).elim (fun hv => hvalue (.inl hv) hreject) hnot
            · cases h
      | true =>
          rw [writeRow_update hrow] at h
          split at h
          · cases h
          simp only [updateRow] at h
          split at h
          · cases h
          next old _ =>
          · split at h
            · next hstore =>
              cases h
              exact (storeError_some hstore).elim (fun hv => hvalue (.inr ⟨old, hv⟩) hreject) hnot
            · split at h
              · cases h
                exact hnot (by simp)
              · cases h

theorem attempt_not_rejected {fault : Option ℕ} (hfault : fault = none) (ha : Acceptable S item) :
    (attempt S fault db item).1 ≠ .reject := by
  subst hfault
  simp only [attempt, attemptWithin]
  split
  · simp
  split
  · simp
  split
  · next code hwrite => exact writeRow_not_rejected ha hwrite
  · simp

/-- The change has a result, or waits. -/
def Answered (p : Pass) (item : WorkItem) : Prop :=
  (item, .a) ∈ p.results ∨ (item, .s) ∈ p.results ∨ ∃ reason, ⟨item, reason⟩ ∈ p.waiting

/-- A later state of the pass has the same answers. -/
structure Retains (p p' : Pass) : Prop where
  results : ∀ e ∈ p.results, e ∈ p'.results
  waiting : ∀ w ∈ p.waiting, w ∈ p'.waiting
  colliding : ∀ i ∈ p.colliding, i ∈ p'.colliding

theorem Retains.refl (p : Pass) : Retains p p := ⟨fun _ => id, fun _ => id, fun _ => id⟩

theorem Retains.trans {p' p'' : Pass} (h : Retains p p') (h' : Retains p' p'') : Retains p p'' :=
  ⟨fun e he => h'.results e (h.results e he), fun w hw => h'.waiting w (h.waiting w hw),
    fun i hi => h'.colliding i (h.colliding i hi)⟩

theorem Answered.retains {p' : Pass} (h : Answered p y) (hk : Retains p p') : Answered p' y := by
  rcases h with h | h | ⟨reason, h⟩
  · exact .inl (hk.results _ h)
  · exact .inr (.inl (hk.results _ h))
  · exact .inr (.inr ⟨reason, hk.waiting _ h⟩)

theorem retains_store (db : Database) : Retains p (p.store db) := ⟨fun _ => id, fun _ => id, fun _ => id⟩

theorem retains_handle (handled : List WorkItem) : Retains p (p.handle handled) := ⟨fun _ => id, fun _ => id, fun _ => id⟩

theorem retains_settle (item : WorkItem) (result : ItemResult) : Retains p (p.settle item result) :=
  ⟨fun _ h => List.mem_append_left _ h, fun _ => id, fun _ => id⟩

theorem retains_clash (item : WorkItem) : Retains p (p.clash item) :=
  ⟨fun _ => id, fun _ => id, fun _ h => List.mem_append_left _ h⟩

theorem retains_wait (item : WorkItem) (reason : Reason) : Retains p (p.wait item reason) :=
  ⟨fun _ => id, fun _ h => List.mem_append_left _ h, fun _ => id⟩

theorem firstRound_retains (node : Node) (env : Surroundings) (p : Pass) (item : WorkItem) :
    Retains p (firstRound node env p item) := by
  simp only [firstRound]
  split
  · exact (retains_store _).trans (retains_settle _ _)
  · exact (retains_store _).trans (retains_settle _ _)
  · exact (retains_store _).trans (retains_clash _)
  · exact (retains_store _).trans (retains_wait _ _)
  · exact (retains_store _).trans (retains_settle _ _)

/-- A change that is not rejected is answered in the first round, or collides. -/
theorem firstRound_answers (h : (attempt node.schema (env.at' .first item).fault p.db item).1 ≠ .reject) :
    Answered (firstRound node env p item) item ∨ item ∈ (firstRound node env p item).colliding := by
  simp only [firstRound]
  split
  · exact .inl (.inl (by simp [Pass.settle]))
  · exact .inl (.inr (.inl (by simp [Pass.settle])))
  · exact .inr (by simp [Pass.clash])
  · next reason _ => exact .inl (.inr (.inr ⟨reason, by simp [Pass.wait]⟩))
  · next hreject => exact absurd hreject h

theorem secondRound_answers {entry : Waiting} (h : Answered p y ∨ y ∈ p.colliding) :
    Answered (secondRound node env p entry) y ∨ y ∈ (secondRound node env p entry).colliding := by
  simp only [secondRound]
  split
  · exact h
  -- the entry itself leaves the waiting ones with a result, or because it collides
  have hmoved : ∀ q : Pass, Retains p q → (entry.item = y → Answered (q.unwait entry) y ∨ y ∈ (q.unwait entry).colliding) →
      Answered (q.unwait entry) y ∨ y ∈ (q.unwait entry).colliding := by
    intro q hq hentry
    rcases h with (ha | hs | ⟨reason, hw⟩) | hc
    · exact .inl (.inl (hq.results _ ha))
    · exact .inl (.inr (.inl (hq.results _ hs)))
    · by_cases heq : (⟨y, reason⟩ : Waiting) = entry
      · exact hentry (by rw [← heq])
      · exact .inl (.inr (.inr ⟨reason, (List.mem_erase_of_ne heq).mpr (hq.waiting _ hw)⟩))
    · exact .inr (hq.colliding _ hc)
  split
  · refine hmoved _ ((retains_store _).trans (retains_settle _ _)) fun heq => .inl (.inl ?_)
    simp [Pass.unwait, Pass.settle, heq]
  · refine hmoved _ ((retains_store _).trans (retains_settle _ _)) fun heq => .inl (.inr (.inl ?_))
    simp [Pass.unwait, Pass.settle, heq]
  · refine hmoved _ ((retains_store _).trans (retains_clash _)) fun heq => .inr ?_
    simp [Pass.unwait, Pass.clash, heq]
  · exact h
  · exact h

theorem settleAlone_retains {blocker : UniqueIndex × List String} (node : Node) (env : Surroundings) (p : Pass)
    (entry : WorkItem) : Retains p (settleAlone node env p entry blocker) := by
  simp only [settleAlone]
  split
  · split
    · exact (retains_handle _).trans ((retains_store _).trans (retains_settle _ _))
    · exact (retains_handle _).trans ((retains_store _).trans (retains_wait _ _))
  · exact (retains_handle _).trans (retains_wait _ _)

theorem settleAlone_answers {blocker : UniqueIndex × List String} {entry : WorkItem} :
    Answered (settleAlone node env p entry blocker) entry := by
  simp only [settleAlone]
  split
  · split
    · exact .inl (by simp [Pass.settle])
    · exact .inr (.inr ⟨.unique, by simp [Pass.wait]⟩)
  · exact .inr (.inr ⟨.unique, by simp [Pass.wait]⟩)

theorem settleAlone_handled {blocker : UniqueIndex × List String} {entry : WorkItem} :
    (settleAlone node env p entry blocker).handled = p.handled ++ [entry] := by
  simp only [settleAlone]
  split
  · split <;> rfl
  · rfl

theorem collide_retains (node : Node) (env : Surroundings) (p : Pass) (entry : WorkItem) :
    Retains p (collide node env p entry) := by
  simp only [collide]
  split
  · exact .refl p
  split
  · exact (retains_store _).trans ((retains_handle _).trans (retains_settle _ _))
  · exact (retains_store _).trans ((retains_handle _).trans (retains_settle _ _))
  · exact (retains_store _).trans ((retains_handle _).trans (retains_settle _ _))
  · exact (retains_store _).trans ((retains_handle _).trans (retains_wait _ _))
  · split
    · split
      · exact ⟨fun _ h => List.mem_append_left _ h, fun _ => id, fun _ => id⟩
      · exact ((retains_store _).trans (retains_store _)).trans (settleAlone_retains node env _ entry)
    · exact (retains_store _).trans (settleAlone_retains node env _ entry)

/-- Members stay in a group that grows. -/
theorem mem_growGroup {fuel cursor : ℕ} {g : Group} (h : y ∈ g.members) : y ∈ (growGroup node p fuel cursor g).members := by
  have hexamine : ∀ (member : WorkItem) (g : Group) (index : UniqueIndex), y ∈ g.members →
      y ∈ (examineIndex node p member g index).members := by
    intro member g index h
    simp only [examineIndex]
    split_ifs with hclosed
    · exact h
    · split
      · exact h
      · split
        · exact h
        · split
          · exact h
          · split
            · exact List.mem_append_left _ h
            · exact h
  induction fuel generalizing cursor g with
  | zero => exact h
  | succ fuel ih =>
      simp only [growGroup]
      split
      · exact h
      · split
        · exact h
        · exact ih (foldl_invariant (fun g' index _ hg' => hexamine _ g' index hg') h)

theorem entry_mem_collectGroup {blocker : UniqueIndex × List String} : y ∈ (collectGroup node p y blocker).members :=
  mem_growGroup (List.mem_singleton.mpr rfl)

/-- Whatever is handled is answered. -/
def HandledAnswered (p : Pass) : Prop := ∀ h ∈ p.handled, Answered p h

theorem collide_answers {entry : WorkItem} (hp : HandledAnswered p)
    (h : (attempt node.schema (env.at' .colliding entry).fault p.db entry).1 ≠ .reject) :
    HandledAnswered (collide node env p entry) ∧ Answered (collide node env p entry) entry := by
  have hkeeps := collide_retains node env p entry
  -- it is enough to look at the entries that are handled now
  suffices hnew : ∀ y, y = entry ∨ y ∈ (collide node env p entry).handled ∧ y ∉ p.handled →
      Answered (collide node env p entry) y by
    refine ⟨fun y hy => ?_, hnew entry (.inl rfl)⟩
    by_cases hold : y ∈ p.handled
    · exact (hp y hold).retains hkeeps
    · exact hnew y (.inr ⟨hy, hold⟩)
  simp only [collide]
  split
  · next hmem =>
    rintro y (rfl | ⟨hy, hnot⟩)
    · exact hp y hmem
    · exact absurd hy hnot
  have hsettled : ∀ (q : Pass) (result : ItemResult), q.handled = p.handled → result = .a ∨ result = .s →
      ∀ y, y = entry ∨ y ∈ ((q.handle [entry]).settle entry result).handled ∧ y ∉ p.handled →
        Answered ((q.handle [entry]).settle entry result) y := by
    rintro q result hq hresult y hy
    have heq : y = entry := by
      rcases hy with heq | ⟨hmem, hnot⟩
      · exact heq
      · simpa [Pass.settle, Pass.handle, hq, hnot] using hmem
    rcases hresult with rfl | rfl
    · exact .inl (by simp [Pass.settle, heq])
    · exact .inr (.inl (by simp [Pass.settle, heq]))
  have halone : ∀ (q : Pass) (blocker : UniqueIndex × List String), q.handled = p.handled →
      ∀ y, y = entry ∨ y ∈ (settleAlone node env q entry blocker).handled ∧ y ∉ p.handled →
        Answered (settleAlone node env q entry blocker) y := by
    rintro q blocker hq y hy
    have heq : y = entry := by
      rcases hy with heq | ⟨hmem, hnot⟩
      · exact heq
      · simpa [settleAlone_handled, hq, hnot] using hmem
    rw [heq]
    exact settleAlone_answers
  split
  · exact hsettled _ .a rfl (.inl rfl)
  · exact hsettled _ .s rfl (.inr rfl)
  · next hreject => exact absurd hreject h
  · next reason _ =>
    rintro y hy
    have heq : y = entry := by
      rcases hy with heq | ⟨hmem, hnot⟩
      · exact heq
      · simpa [Pass.wait, Pass.handle, Pass.store, hnot] using hmem
    exact .inr (.inr ⟨reason, by simp [Pass.wait, heq]⟩)
  · next index otherKey _ =>
    split
    · split
      · rintro y hy
        have hmember : y ∈ (collectGroup node (p.store (attempt node.schema (env.at' .colliding entry).fault p.db entry).2)
            entry (index, otherKey)).members := by
          rcases hy with rfl | ⟨hmem, hnot⟩
          · exact entry_mem_collectGroup
          · exact (List.mem_append.mp hmem).resolve_left hnot
        exact .inl (List.mem_append_right _ (List.mem_map.mpr ⟨y, hmember, rfl⟩))
      · exact halone _ _ rfl
    · exact halone _ _ rfl

theorem firstRound_handled : (firstRound node env p item).handled = p.handled := by
  simp only [firstRound]
  split <;> rfl

theorem secondRound_handled {entry : Waiting} : (secondRound node env p entry).handled = p.handled := by
  simp only [secondRound]
  split
  · rfl
  · split <;> rfl

theorem afterSecond_handled : (afterSecond node env db items).handled = [] := by
  have hfirst : (afterFirst node env db items).handled = [] :=
    foldl_invariant (P := fun p : Pass => p.handled = []) (fun _ _ _ h => firstRound_handled.trans h) rfl
  exact foldl_invariant (P := fun p : Pass => p.handled = []) (fun _ _ _ h => secondRound_handled.trans h) hfirst

/-- In a pass that is not failed, every change that is acceptable is answered, and not by a rejection. -/
theorem carefulPass_answers (hfault : ∀ phase item, (env.at' phase item).fault = none)
    (ha : ∀ i ∈ items, Acceptable node.schema i) : ∀ y ∈ items, Answered (carefulPass node env db items) y := by
  have hfirst : ∀ y ∈ items, Answered (afterFirst node env db items) y ∨ y ∈ (afterFirst node env db items).colliding := by
    rw [afterFirst]
    refine foldl_splits (P := fun done (p : Pass) => ∀ y ∈ done, Answered p y ∨ y ∈ p.colliding) (by simp) ?_
    intro done item rest hl hdone y hy
    rcases List.mem_append.mp hy with hold | hnew
    · have hkeeps := firstRound_retains node env (done.foldl (firstRound node env) ⟨db, [], [], [], []⟩) item
      exact (hdone y hold).imp (fun h => h.retains hkeeps) (hkeeps.colliding y)
    · rw [List.mem_singleton.mp hnew]
      exact firstRound_answers (attempt_not_rejected (hfault _ _) (ha item (by simp [hl])))
  have hsecond : ∀ y ∈ items, Answered (afterSecond node env db items) y ∨ y ∈ (afterSecond node env db items).colliding := by
    rw [afterSecond]
    exact foldl_invariant (P := fun p : Pass => ∀ y ∈ items, Answered p y ∨ y ∈ p.colliding)
      (fun _ _ _ h y hy => secondRound_answers (h y hy)) hfirst
  -- the colliding ones in their order; `done` are those that have had their turn
  have hlast : (∀ y ∈ (afterSecond node env db items).colliding, Answered (carefulPass node env db items) y) ∧
      Retains (afterSecond node env db items) (carefulPass node env db items) := by
    rw [carefulPass_eq]
    refine (foldl_splits (P := fun done (p : Pass) => HandledAnswered p ∧
      (∀ y ∈ done, Answered p y) ∧ Retains (afterSecond node env db items) p) ⟨?_, by simp, .refl _⟩ ?_).2
    · intro y hy
      rw [afterSecond_handled] at hy
      cases hy
    · rintro done entry rest hl ⟨hhandled, hdone, hkeeps⟩
      have hentry := afterSecond_inv.colliding entry (by rw [hl]; simp)
      obtain ⟨hhandled', hanswered⟩ := collide_answers hhandled (attempt_not_rejected (hfault _ _) (ha entry hentry))
      have hkeeps' := collide_retains node env (done.foldl (collide node env) (afterSecond node env db items)) entry
      refine ⟨hhandled', fun y hy => ?_, hkeeps.trans hkeeps'⟩
      rcases List.mem_append.mp hy with hold | hnew
      · exact (hdone y hold).retains hkeeps'
      · rw [List.mem_singleton.mp hnew]
        exact hanswered
  intro y hy
  rcases hsecond y hy with h | h
  · exact h.retains hlast.2
  · exact hlast.1 y h

/-! ### What is set aside after a pass -/

theorem saveDeferred_other {now : ℕ} {reason : Reason} (h : item.itemKey ≠ key) :
    (saveDeferred now deferred item reason).lookup key = deferred.lookup key := by
  simp only [saveDeferred]
  split
  · rw [Table.lookup_insert_of, if_neg h.symm]
  · split
    · rfl
    · rw [Table.lookup_insert_of, if_neg h.symm]

/-- The change of a row is set aside again. -/
theorem saveDeferred_again {now : ℕ} {reason : Reason} (h : IsOf item key row) (hrow : deferred.lookup key = some row) :
    ∃ row', (saveDeferred now deferred item reason).lookup key = some row' ∧ Resaved row row' ∧ row'.lastTriedAt = now ∧
      row'.reason = reason := by
  obtain rfl := h.key
  have hsame : (row.version = item.version && row.origin = item.origin) = true := by simp [h.version, h.origin]
  simp only [saveDeferred, hrow, hsame, Bool.not_true, Bool.and_false, Bool.false_eq_true, if_false]
  rw [Table.lookup_insert_of, if_pos rfl]
  exact ⟨_, rfl, ⟨⟨h.wire, h.fromPeer, h.version, h.origin, rfl⟩, Nat.lt_succ_self _⟩, rfl, rfl⟩

theorem settleWaiting_other {entry : Waiting} (h : entry.item.itemKey ≠ key) :
    (settleWaiting node env f entry).store.deferred.lookup key = f.store.deferred.lookup key := by
  simp only [settleWaiting]
  split
  · rfl
  · exact saveDeferred_other h

theorem settleWaiting_results {entry : Waiting} :
    (settleWaiting node env f entry).results = f.results ++ [(entry.item, .s)] ∧
        (settleWaiting node env f entry).store.deferred = f.store.deferred ∨
      (settleWaiting node env f entry).results = f.results ++ [(entry.item, .d)] ∧
        (settleWaiting node env f entry).store.deferred =
          saveDeferred (env.at' .settle entry.item).now f.store.deferred entry.item entry.reason := by
  simp only [settleWaiting]
  split
  · exact .inl ⟨rfl, rfl⟩
  · exact .inr ⟨rfl, rfl⟩

/-- It is set aside again at that time, for one of the reasons. -/
def Moved (row : DeferredRow) (now : ℕ) (reasons : Reason → Prop) (found : Option DeferredRow) : Prop :=
  ∃ row', found = some row' ∧ Resaved row row' ∧ row'.lastTriedAt = now ∧ reasons row'.reason

theorem Moved.imp {now : ℕ} {reasons reasons' : Reason → Prop} {found : Option DeferredRow}
    (h : Moved row now reasons found) (himp : ∀ reason, reasons reason → reasons' reason) : Moved row now reasons' found := by
  obtain ⟨row', hfound, hagain, hnow, hreason⟩ := h
  exact ⟨row', hfound, hagain, hnow, himp _ hreason⟩

theorem settleWaiting_moves {waiting : List Waiting} (h : IsOf y key row) (hrow : f.store.deferred.lookup key = some row)
    (honly : ∀ w ∈ waiting, w.item.itemKey = key → w.item = y) :
    (∀ e ∈ f.results, e ∈ (waiting.foldl (settleWaiting node env) f).results) ∧
      ((waiting.foldl (settleWaiting node env) f).store.deferred.lookup key = some row ∧
          (∀ w ∈ waiting, w.item = y → (y, .s) ∈ (waiting.foldl (settleWaiting node env) f).results) ∨
        Moved row (env.at' .settle y).now (fun reason => ⟨y, reason⟩ ∈ waiting)
          ((waiting.foldl (settleWaiting node env) f).store.deferred.lookup key)) := by
  refine foldl_splits (f := settleWaiting node env) (P := fun done (g : Done) => (∀ e ∈ f.results, e ∈ g.results) ∧
    (g.store.deferred.lookup key = some row ∧ (∀ w ∈ done, w.item = y → (y, .s) ∈ g.results) ∨
      Moved row (env.at' .settle y).now (fun reason => ⟨y, reason⟩ ∈ done) (g.store.deferred.lookup key)))
    ⟨fun _ => id, .inl ⟨hrow, by simp⟩⟩ ?_
  intro done w rest hl ⟨hresults, hdone⟩
  generalize done.foldl (settleWaiting node env) f = g at hresults hdone ⊢
  by_cases hkey : w.item.itemKey = key
  · have hw : w.item = y := honly w (by simp [hl]) hkey
    rcases @settleWaiting_results node env g w with ⟨hres, hdef⟩ | ⟨hres, hdef⟩
    · refine ⟨fun e he => hres ▸ List.mem_append_left _ (hresults e he), ?_⟩
      rw [hdef]
      refine hdone.imp (fun hsame => ⟨hsame.1, fun _ _ _ => ?_⟩) fun h => h.imp fun _ => List.mem_append_left _
      rw [hres, hw]
      simp
    · refine ⟨fun e he => hres ▸ List.mem_append_left _ (hresults e he), .inr ?_⟩
      rw [hdef, hw]
      have hlast : ∀ reason, reason = w.reason → (⟨y, reason⟩ : Waiting) ∈ done ++ [w] := by
        rintro _ rfl
        simp [← hw]
      rcases hdone with ⟨hsame, -⟩ | ⟨row', hfound, hagain, -⟩
      · obtain ⟨row', hfound, hagain, hnow, hreason⟩ := saveDeferred_again h hsame
        exact ⟨row', hfound, hagain, hnow, hlast _ hreason⟩
      · -- set aside twice by one change
        obtain ⟨row'', hfound', hagain', hnow, hreason⟩ := saveDeferred_again (h.same hagain.toSameChange) hfound
        exact ⟨row'', hfound', ⟨hagain.toSameChange.trans hagain'.toSameChange, hagain.attempts.trans hagain'.attempts⟩,
          hnow, hlast _ hreason⟩
  · have hne : w.item ≠ y := fun heq => hkey (heq ▸ h.key)
    rw [settleWaiting_other hkey]
    have hmono : ∀ e ∈ g.results, e ∈ (settleWaiting node env g w).results := by
      intro e he
      rcases @settleWaiting_results node env g w with ⟨hres, -⟩ | ⟨hres, -⟩ <;>
        exact hres ▸ List.mem_append_left _ he
    refine ⟨fun e he => hmono e (hresults e he), hdone.imp (fun hsame => ⟨hsame.1, fun w' hw' heq => ?_⟩)
      fun h => h.imp fun _ => List.mem_append_left _⟩
    rcases List.mem_append.mp hw' with hold | hnew
    · exact hmono _ (hsame.2 w' hold heq)
    · exact absurd (List.mem_singleton.mp hnew ▸ heq) hne

theorem clearDeferred_lookup : (clearDeferred deferred item).lookup key = deferred.lookup key ∨
    item.itemKey = key ∧ (clearDeferred deferred item).lookup key = none := by
  rw [lookup_clearDeferred]
  split
  · next h => exact .inr ⟨h.1.symm, rfl⟩
  · exact .inl rfl

theorem clearDeferred_self (hkey : item.itemKey = key)
    (hversion : ∀ row, deferred.lookup key = some row → row.version ≤ item.version) :
    (clearDeferred deferred item).lookup key = none := by
  rw [lookup_clearDeferred]
  split
  · rfl
  · next h =>
    refine Option.eq_none_iff_forall_ne_some.mpr fun row hrow => h ⟨hkey.symm, row, hrow, hversion row hrow⟩

theorem clearStep_lookup (deferred : SetAside) (e : WorkItem × ItemResult) :
    (if e.2 = .a ∨ e.2 = .s then clearDeferred deferred e.1 else deferred).lookup key = deferred.lookup key ∨
      (e.1.itemKey = key ∧ (e.2 = .a ∨ e.2 = .s)) ∧
        (if e.2 = .a ∨ e.2 = .s then clearDeferred deferred e.1 else deferred).lookup key = none := by
  split
  · next hresult => exact clearDeferred_lookup.imp id fun h => ⟨⟨h.1, hresult⟩, h.2⟩
  · exact .inl rfl

/-- What is set aside is cleared or stays. -/
theorem clearSettled_lookup {results : List (WorkItem × ItemResult)} :
    (clearSettled deferred results).lookup key = deferred.lookup key ∨
      (∃ e ∈ results, e.1.itemKey = key ∧ (e.2 = .a ∨ e.2 = .s)) ∧ (clearSettled deferred results).lookup key = none := by
  refine foldl_splits (P := fun (done : List (WorkItem × ItemResult)) (d : SetAside) =>
    d.lookup key = deferred.lookup key ∨
      (∃ e ∈ done, e.1.itemKey = key ∧ (e.2 = .a ∨ e.2 = .s)) ∧ d.lookup key = none) (.inl rfl) ?_
  intro done e rest hl hdone
  rcases clearStep_lookup (done.foldl (fun d (e : WorkItem × ItemResult) =>
    if e.2 = .a ∨ e.2 = .s then clearDeferred d e.1 else d) deferred) e with hsame | ⟨hkey, hnone⟩
  · refine hdone.imp hsame.trans fun h => ⟨?_, hsame.trans h.2⟩
    obtain ⟨e', he', hkey⟩ := h.1
    exact ⟨e', List.mem_append_left _ he', hkey⟩
  · exact .inr ⟨⟨e, by simp, hkey⟩, hnone⟩

theorem clearSettled_self {results : List (WorkItem × ItemResult)} (hkey : item.itemKey = key)
    (hversion : ∀ row, deferred.lookup key = some row → row.version ≤ item.version)
    (h : (item, .a) ∈ results ∨ (item, .s) ∈ results) : (clearSettled deferred results).lookup key = none := by
  obtain ⟨result, hmem, hresult⟩ : ∃ result, (item, result) ∈ results ∧ (result = ItemResult.a ∨ result = .s) := by
    rcases h with h | h
    · exact ⟨_, h, .inl rfl⟩
    · exact ⟨_, h, .inr rfl⟩
  refine foldl_establish (I := fun d : SetAside => ∀ row, d.lookup key = some row → row.version ≤ item.version)
    (P := fun d : SetAside => d.lookup key = none) (fun d e _ hI row hrow => ?_) (fun d e _ _ hP => ?_) hmem
    (fun d hI => ?_) hversion
  · rcases clearStep_lookup d e with hsame | ⟨-, hnone⟩
    · exact hI row (hsame.symm.trans hrow)
    · rw [hnone] at hrow
      cases hrow
  · exact (clearStep_lookup d e).elim (fun hsame => hsame.trans hP) And.right
  · simp only [if_pos hresult]
    exact clearDeferred_self hkey hI

/-! ### The changes that a retry takes -/

theorem retryRows_perm (limit : ℕ) (deferred : SetAside) :
    (retryRows limit deferred).Sublist (deferred.toList.insertionSort fun a b => a.2.lastTriedAt ≤ b.2.lastTriedAt) ∧
      (deferred.toList.insertionSort fun a b => a.2.lastTriedAt ≤ b.2.lastTriedAt).Perm deferred.toList :=
  ⟨List.take_sublist _ _, List.perm_insertionSort _ _⟩

theorem nodup_retryRows (limit : ℕ) (deferred : SetAside) : ((retryRows limit deferred).map Prod.fst).Nodup := by
  obtain ⟨hsub, hperm⟩ := retryRows_perm limit deferred
  exact ((hperm.map Prod.fst).nodup_iff.mpr (Table.nodup_toList deferred)).sublist (hsub.map _)

/-- What is not taken was tried no earlier than what is. -/
theorem lastTriedAt_le {limit : ℕ} (hrow : deferred.lookup key = some row) (hnot : (key, row) ∉ retryRows limit deferred) :
    ∀ e ∈ retryRows limit deferred, e.2.lastTriedAt ≤ row.lastTriedAt := by
  intro e he
  have hsorted : (deferred.toList.insertionSort fun a b => a.2.lastTriedAt ≤ b.2.lastTriedAt).Pairwise
      fun a b => a.2.lastTriedAt ≤ b.2.lastTriedAt := by
    have : Std.Total fun a b : (String × String) × DeferredRow => a.2.lastTriedAt ≤ b.2.lastTriedAt :=
      ⟨fun a b => le_total _ _⟩
    have : IsTrans _ fun a b : (String × String) × DeferredRow => a.2.lastTriedAt ≤ b.2.lastTriedAt :=
      ⟨fun _ _ _ => le_trans⟩
    exact List.pairwise_insertionSort _ _
  rw [← List.take_append_drop limit (deferred.toList.insertionSort _), List.pairwise_append] at hsorted
  have hmem : (key, row) ∈ deferred.toList.insertionSort fun a b => a.2.lastTriedAt ≤ b.2.lastTriedAt :=
    (retryRows_perm limit deferred).2.mem_iff.mpr (Table.mem_toList.mpr hrow)
  rw [← List.take_append_drop limit (deferred.toList.insertionSort _)] at hmem
  exact hsorted.2.2 e he _ ((List.mem_append.mp hmem).resolve_left hnot)

theorem retryRows_ne_nil {limit : ℕ} (hlimit : 0 < limit) (hrow : deferred.lookup key = some row) :
    retryRows limit deferred ≠ [] := by
  have hmem := (retryRows_perm limit deferred).2.mem_iff.mpr (Table.mem_toList.mpr hrow)
  simp only [retryRows, ne_eq, List.take_eq_nil_iff, not_or]
  exact ⟨hlimit.ne', List.ne_nil_of_mem hmem⟩

theorem mem_items (hs : Faithful store.deferred) (h : y ∈ r.items node store) :
    ∃ key row, (key, row) ∈ retryRows r.limit store.deferred ∧ retryItem node r.now (key, row) = some y ∧
      Built node y ∧ IsOf y key row ∧ y.deferred = some ⟨row.attempts, row.firstSeenAt⟩ := by
  obtain ⟨⟨key, row⟩, hmem, hitem⟩ := List.mem_filterMap.mp h
  exact ⟨key, row, hmem, hitem, retryItem_isOf hs (mem_retryRows hmem) hitem⟩

/-- The changes of a retry are of different rows. -/
theorem eq_of_itemKey (hs : Faithful store.deferred) (hx : x ∈ r.items node store) (hy : y ∈ r.items node store)
    (h : x.itemKey = y.itemKey) : x = y := by
  obtain ⟨key, row, hmem, hitem, -, hof, -⟩ := mem_items hs hx
  obtain ⟨key', row', hmem', hitem', -, hof', -⟩ := mem_items hs hy
  obtain rfl : key = key' := by rw [← hof.key, ← hof'.key, h]
  obtain rfl := congrArg Prod.snd (List.inj_on_of_nodup_map (nodup_retryRows _ _) hmem hmem' rfl)
  exact Option.some_inj.mp (hitem.symm.trans hitem')

/-! ### A retry -/

/-- The pass that a retry makes. -/
def Retry.pass (r : Retry) (node : Node) (store : Store) : Pass :=
  carefulPass node r.env store.db (orderItems (r.items node store))

/-- What is set aside without what cannot be used any more. -/
def Retry.usable (r : Retry) (node : Node) (store : Store) : SetAside :=
  (unusableRows node r.now r.limit store.deferred).foldl (fun deferred entry => deferred.erase entry.1) store.deferred

/-- The end of the pass, before what is settled is cleared. -/
def Retry.waited (r : Retry) (node : Node) (store : Store) : Done :=
  (r.pass node store).waiting.foldl (settleWaiting node r.env)
    ⟨⟨(r.pass node store).db, r.usable node store⟩, (r.pass node store).results, []⟩

/-- A retry goes item by item. -/
theorem Retry.done_eq (hs : Faithful store.deferred) :
    (r.done node store).store.db = (r.pass node store).db ∧
      (r.done node store).store.deferred =
        clearSettled (r.waited node store).store.deferred (r.waited node store).results := by
  have hdeferred : ∀ i ∈ r.items node store, i.deferred.isSome := by
    intro i hi
    obtain ⟨_, _, _, _, _, _, hdeferred⟩ := mem_items hs hi
    rw [hdeferred]
    rfl
  have hfast : (!(orderItems (r.items node store)).isEmpty &&
      (orderItems (r.items node store)).all fun item => item.deferred.isNone) = false := by
    cases hitems : orderItems (r.items node store) with
    | nil => rfl
    | cons i rest =>
        have hi := hdeferred i (mem_orderItems.mp (by rw [hitems]; exact List.mem_cons_self))
        simp [Option.isSome_iff_ne_none.mp hi]
  have hdb : (r.waited node store).store.db = (r.pass node store).db := settleWaiting_dropped.1
  have hdone : r.done node store = processItems node r.env ⟨store.db, r.usable node store⟩ (r.items node store) := rfl
  rw [hdone]
  simp only [processItems, hfast, Bool.false_eq_true, if_false]
  split
  · exact ⟨hdb, rfl⟩
  · next hnone =>
    -- nothing is taken
    have hitems : r.items node store = [] := by
      refine List.eq_nil_iff_forall_not_mem.mpr fun i hi => hnone ?_
      rw [Bool.or_eq_true]
      exact .inl (List.any_eq_true.mpr ⟨i, hi, hdeferred i hi⟩)
    have hempty : (r.waited node store).results = [] := by
      simp [Retry.waited, Retry.pass, hitems, orderItems, carefulPass]
    rw [hempty]
    exact ⟨hdb, rfl⟩

theorem usable_dropped (hmem : (key, row) ∈ retryRows r.limit store.deferred)
    (hnone : retryItem node r.now (key, row) = none) : (r.usable node store).lookup key = none := by
  refine erase_unusable.trans (if_pos (List.mem_map.mpr ⟨_, List.mem_filter.mpr ⟨hmem, ?_⟩, rfl⟩))
  rw [hnone]
  rfl

theorem usable_other (h : ∀ row, (key, row) ∈ retryRows r.limit store.deferred → retryItem node r.now (key, row) ≠ none) :
    (r.usable node store).lookup key = store.deferred.lookup key := by
  refine erase_unusable.trans (if_neg fun hmem => ?_)
  obtain ⟨⟨key', row⟩, hentry, rfl⟩ := List.mem_map.mp hmem
  obtain ⟨hentry, hnone⟩ := List.mem_filter.mp hentry
  exact h row hentry (Option.isNone_iff_eq_none.mp hnone)

/-- The pass speaks of the changes that are taken only. -/
theorem waited_items (hs : Faithful store.deferred) :
    (∀ w ∈ (r.pass node store).waiting, w.item ∈ r.items node store) ∧
      ∀ e ∈ (r.waited node store).results, e.1 ∈ r.items node store := by
  have hinv : PassInv (orderItems (r.items node store)) store.db (r.pass node store) :=
    carefulPass_inv fun i hi => (mem_items hs (mem_orderItems.mp hi)).elim fun _ h => h.elim fun _ h => h.2.2.1
  have hwaiting : ∀ w ∈ (r.pass node store).waiting, w.item ∈ r.items node store :=
    fun w hw => mem_orderItems.mp (hinv.waiting w hw)
  refine ⟨hwaiting, foldl_invariant (f := settleWaiting node r.env) (P := fun g : Done =>
    ∀ e ∈ g.results, e.1 ∈ r.items node store) (fun g w hw hg e he => ?_) fun e he => ?_⟩
  · rcases @settleWaiting_results node r.env g w with ⟨hres, -⟩ | ⟨hres, -⟩ <;>
    · rw [hres] at he
      rcases List.mem_append.mp he with hold | hnew
      · exact hg e hold
      · rw [List.mem_singleton.mp hnew]
        exact hwaiting w hw
  · exact mem_orderItems.mp (hinv.answered e he).1

/-- Nothing is set aside of which the retry does not speak. -/
theorem done_lookup_other (hs : Faithful store.deferred) (hother : ∀ y ∈ r.items node store, y.itemKey ≠ key) :
    (r.done node store).store.deferred.lookup key = (r.usable node store).lookup key := by
  obtain ⟨hwaiting, hresults⟩ := @waited_items node store r hs
  have hwaited : (r.waited node store).store.deferred.lookup key = (r.usable node store).lookup key :=
    foldl_invariant (f := settleWaiting node r.env) (P := fun g : Done =>
      g.store.deferred.lookup key = (r.usable node store).lookup key)
      (fun g w hw hg => (settleWaiting_other (hother _ (hwaiting w hw))).trans hg) rfl
  rw [(Retry.done_eq hs).2]
  rcases @clearSettled_lookup (r.waited node store).store.deferred key (r.waited node store).results with
    hsame | ⟨⟨e, he, hkey, -⟩, -⟩
  · exact hsame.trans hwaited
  · exact absurd hkey (hother _ (hresults e he))

/-- A change that is not taken stays as it is. -/
theorem retryDeferred_other (hs : Faithful store.deferred)
    (hnot : ∀ row, (key, row) ∉ retryRows r.limit store.deferred) :
    (r.done node store).store.deferred.lookup key = store.deferred.lookup key := by
  rw [done_lookup_other hs, usable_other fun row hmem => absurd hmem (hnot row)]
  intro y hy heq
  obtain ⟨key', row, hmem, -, -, hof, -⟩ := mem_items hs hy
  obtain rfl : key' = key := hof.key.symm.trans heq
  exact hnot row hmem

theorem waited_moves (hs : Faithful store.deferred) (hy : y ∈ r.items node store) (hof : IsOf y key row)
    (hrow : store.deferred.lookup key = some row) :
    (∀ e ∈ (r.pass node store).results, e ∈ (r.waited node store).results) ∧
      ((r.waited node store).store.deferred.lookup key = some row ∧
          (∀ w ∈ (r.pass node store).waiting, w.item = y → (y, ItemResult.s) ∈ (r.waited node store).results) ∨
        Moved row (r.env.at' .settle y).now (fun reason => ⟨y, reason⟩ ∈ (r.pass node store).waiting)
          ((r.waited node store).store.deferred.lookup key)) := by
  have hstart : (r.usable node store).lookup key = some row := by
    refine (usable_other fun row' hmem hnone => ?_).trans hrow
    obtain ⟨key', row'', hmem', hitem, -, hof', -⟩ := mem_items hs hy
    obtain rfl : key' = key := hof'.key.symm.trans hof.key
    obtain rfl := congrArg Prod.snd (List.inj_on_of_nodup_map (nodup_retryRows _ _) hmem hmem' rfl)
    rw [hnone] at hitem
    cases hitem
  have honly : ∀ w ∈ (r.pass node store).waiting, w.item.itemKey = key → w.item = y :=
    fun w hw hkey => eq_of_itemKey hs ((waited_items hs).1 w hw) hy (hkey.trans hof.key.symm)
  exact @settleWaiting_moves node r.env ⟨⟨(r.pass node store).db, r.usable node store⟩, (r.pass node store).results, []⟩
    y key row _ hof hstart honly

/-- A change that is settled is not set aside any more. -/
theorem done_lookup_settled (hs : Faithful store.deferred) (hy : y ∈ r.items node store) (hof : IsOf y key row)
    (hrow : store.deferred.lookup key = some row)
    (h : (y, .a) ∈ (r.waited node store).results ∨ (y, .s) ∈ (r.waited node store).results) :
    (r.done node store).store.deferred.lookup key = none := by
  rw [(Retry.done_eq hs).2]
  refine clearSettled_self hof.key (fun row' hrow' => ?_) h
  rw [hof.version]
  rcases (waited_moves hs hy hof hrow).2 with ⟨hsame, -⟩ | ⟨row'', hfound, hagain, -⟩
  · rw [hsame] at hrow'
    cases hrow'
    exact le_rfl
  · rw [hfound] at hrow'
    cases hrow'
    exact hagain.version.le

/-- One that waits is set aside again. -/
theorem done_lookup_waiting (hs : Faithful store.deferred) (hy : y ∈ r.items node store) (hof : IsOf y key row)
    (hrow : store.deferred.lookup key = some row)
    (h : ¬ ((y, .a) ∈ (r.waited node store).results ∨ (y, .s) ∈ (r.waited node store).results)) {reason : Reason}
    (hwaits : ⟨y, reason⟩ ∈ (r.pass node store).waiting) :
    Moved row (r.env.at' .settle y).now (fun reason => ⟨y, reason⟩ ∈ (r.pass node store).waiting)
      ((r.done node store).store.deferred.lookup key) := by
  rcases (waited_moves hs hy hof hrow).2 with ⟨-, hdropped⟩ | hmoved
  · exact absurd (.inr (hdropped _ hwaits rfl)) h
  rw [(Retry.done_eq hs).2]
  rcases @clearSettled_lookup (r.waited node store).store.deferred key (r.waited node store).results with
    hsame | ⟨⟨e, he, hkey, hresult⟩, -⟩
  · rwa [hsame]
  · -- only the change itself could clear it
    have heq : e.1 = y := eq_of_itemKey hs ((waited_items hs).2 e he) hy (hkey.trans hof.key.symm)
    obtain ⟨i, result⟩ := e
    obtain rfl : i = y := heq
    rcases hresult with rfl | rfl
    · exact absurd (.inl he) h
    · exact absurd (.inr he) h

/-- In a retry that is not failed, whatever is taken is not set aside any more, or it is set aside again. -/
theorem retryDeferred_taken (hs : Faithful store.deferred) (hfault : r.Faultless)
    (hacc : ∀ i ∈ r.items node store, Acceptable node.schema i)
    (hmem : (key, row) ∈ retryRows r.limit store.deferred) :
    (r.done node store).store.deferred.lookup key = none ∨
      ∃ item, Moved row (r.env.at' .settle item).now (fun reason => ⟨item, reason⟩ ∈ (r.pass node store).waiting)
        ((r.done node store).store.deferred.lookup key) := by
  have hrow := mem_retryRows hmem
  cases hitem : retryItem node r.now (key, row) with
  | none =>
      refine .inl ((done_lookup_other hs fun y hy heq => ?_).trans (usable_dropped hmem hitem))
      obtain ⟨key', row', hmem', hitem', -, hof, -⟩ := mem_items hs hy
      obtain rfl : key' = key := hof.key.symm.trans heq
      obtain rfl := congrArg Prod.snd (List.inj_on_of_nodup_map (nodup_retryRows _ _) hmem hmem' rfl)
      rw [hitem] at hitem'
      cases hitem'
  | some y =>
      have hy : y ∈ r.items node store := List.mem_filterMap.mpr ⟨_, hmem, hitem⟩
      have hanswered : Answered (r.pass node store) y := carefulPass_answers hfault
        (fun i hi => hacc i (mem_orderItems.mp hi)) y (mem_orderItems.mpr hy)
      have hof := (retryItem_isOf hs hrow hitem).2.1
      by_cases hsettled : (y, .a) ∈ (r.waited node store).results ∨ (y, .s) ∈ (r.waited node store).results
      · exact .inl (done_lookup_settled hs hy hof hrow hsettled)
      · obtain ⟨hmore, -⟩ := waited_moves hs hy hof hrow
        rcases hanswered with h | h | ⟨reason, h⟩
        · exact absurd (.inl (hmore _ h)) hsettled
        · exact absurd (.inr (hmore _ h)) hsettled
        · exact .inr ⟨y, done_lookup_waiting hs hy hof hrow hsettled h⟩

/-! ### Coming closer -/

/-- What was tried no later. -/
def ahead (deferred : SetAside) (lastTriedAt : ℕ) : Finset (String × String) :=
  ((deferred.toList.filter fun e => e.2.lastTriedAt ≤ lastTriedAt).map Prod.fst).toFinset

theorem mem_ahead {t : ℕ} : key ∈ ahead deferred t ↔ ∃ row, deferred.lookup key = some row ∧ row.lastTriedAt ≤ t := by
  simp [ahead, Table.mem_toList]

theorem faithful_done (hs : Faithful store.deferred) (hfault : r.Faultless)
    (hacc : ∀ i ∈ r.items node store, Acceptable node.schema i) : Faithful (r.done node store).store.deferred := by
  intro key row hrow
  by_cases htaken : ∃ row₀, (key, row₀) ∈ retryRows r.limit store.deferred
  · obtain ⟨row₀, hmem⟩ := htaken
    rcases retryDeferred_taken hs hfault hacc hmem with hnone | ⟨_, row', hfound, hagain, -⟩
    · rw [hrow] at hnone
      cases hnone
    · rw [hrow] at hfound
      cases hfound
      obtain ⟨hhash, hversion, horigin⟩ := hs key row₀ (mem_retryRows hmem)
      rw [hagain.payload, hagain.version, hagain.origin]
      exact ⟨hhash, hversion, horigin⟩
  · rw [retryDeferred_other hs fun row₀ hmem => htaken ⟨row₀, hmem⟩] at hrow
    exact hs key row hrow

/-- When a change is not taken, fewer are ahead of it afterwards. -/
theorem ahead_lt (hs : Faithful store.deferred) (hfault : r.Faultless)
    (hacc : ∀ i ∈ r.items node store, Acceptable node.schema i) (hlater : r.Later store.deferred) (hlimit : 0 < r.limit)
    (hrow : store.deferred.lookup key = some row) (hnot : (key, row) ∉ retryRows r.limit store.deferred) :
    (ahead (r.done node store).store.deferred row.lastTriedAt).card < (ahead store.deferred row.lastTriedAt).card := by
  -- whatever is taken is tried later than `key` was, or gone
  have htaken : ∀ e ∈ retryRows r.limit store.deferred, e.1 ∉ ahead (r.done node store).store.deferred row.lastTriedAt := by
    rintro ⟨key', row'⟩ hmem hahead
    obtain ⟨row'', hfound, hle⟩ := mem_ahead.mp hahead
    rcases retryDeferred_taken hs hfault hacc hmem with hnone | ⟨item, row₁, hfound', -, hnow, -⟩
    · rw [hfound] at hnone
      cases hnone
    · rw [hfound] at hfound'
      cases hfound'
      exact absurd (hnow ▸ hle) (not_le.mpr (hlater key row hrow item))
  obtain ⟨⟨key', row'⟩, hmem⟩ := List.exists_mem_of_ne_nil _ (retryRows_ne_nil hlimit hrow)
  refine Finset.card_lt_card (Finset.ssubset_iff_of_subset (fun key'' hahead => ?_) |>.mpr ⟨key', ?_, htaken _ hmem⟩)
  · obtain ⟨row'', hfound, hle⟩ := mem_ahead.mp hahead
    have hnottaken : ∀ row₁, (key'', row₁) ∉ retryRows r.limit store.deferred := fun row₁ hmem' => htaken _ hmem' hahead
    rw [retryDeferred_other hs hnottaken] at hfound
    exact mem_ahead.mpr ⟨row'', hfound, hle⟩
  · exact mem_ahead.mpr ⟨row', mem_retryRows hmem, lastTriedAt_le hrow hnot _ hmem⟩

end Pokyh.Cluster

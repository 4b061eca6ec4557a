import Pokyh.Cluster.FastPath
import Pokyh.Cluster.Passes

/-!
# Cluster — Responsibility

What a node answers `a`, `s` or `d` to, it must hold afterwards: in the version registry, or set
aside.  `Receiver` is the node's store with a ledger of these answers (`owed`); an entry leaves the
ledger only when a change of its row, at least as new, is dropped: set aside with an unusable table
or payload or for too long, or an orphan whose sender has nothing more.

`clearDeferred` compares version numbers only, so an item `(v, A)` removes a set-aside change
`(v, B)` of the same row with `A < B`, which is newer and held nowhere else.  `Untied` says that
this does not come up.

* `processItems_held`: one pass keeps what was held, and holds what it answers.
* `responsibility`: **in a run without such ties, everything owed is held.**
-/

namespace Pokyh.Cluster
open Pokyh.Lib

variable {node : Node} {env : Surroundings} {store : Store} {item : WorkItem} {items : List WorkItem}

/-! ### Holding a change -/

/-- The node has version `w` of the row, or a newer one, in the registry or set aside. -/
def Held (store : Store) (k : String × String) (w : RowVersion) : Prop :=
  (∃ u, store.db.readVersion k.1 k.2 = some u ∧ w ≤ u) ∨
    ∃ e, store.deferred.lookup k = some e ∧ w ≤ e.rowVersion

theorem Covered.held {deferred : SetAside} {db : Database} (h : Covered db item) :
    Held ⟨db, deferred⟩ item.itemKey item.rowVersion := .inl h

/-- A set-aside entry is stored under the row and the version of its payload. -/
def Faithful (deferred : SetAside) : Prop :=
  ∀ k e, deferred.lookup k = some e →
    e.payload.item.h = k.2 ∧ e.payload.item.v = e.version ∧ e.payload.item.o = e.origin

/-- No item of a pass ties with a set-aside change, or another item, of its row: same version
number, and an origin that sorts below; unless what is stored is at least as new already. -/
structure Untied (store : Store) (items : List WorkItem) : Prop where
  aside : ∀ item ∈ items, ∀ e, store.deferred.lookup item.itemKey = some e →
    e.version = item.version → item.origin < e.origin →
    ∃ u, store.db.readVersion item.table.name item.hash = some u ∧ e.rowVersion ≤ u
  items : ∀ i ∈ items, ∀ j ∈ items, i.itemKey = j.itemKey → i.version = j.version →
    i.origin = j.origin

/-! ### Setting aside -/

variable {deferred deferred' : SetAside} {now : ℕ} {reason : Reason}

/-- The set-aside entries only get newer. -/
def Keeps (deferred deferred' : SetAside) : Prop :=
  ∀ k e, deferred.lookup k = some e →
    ∃ e', deferred'.lookup k = some e' ∧ e.rowVersion ≤ e'.rowVersion

theorem Keeps.refl (deferred : SetAside) : Keeps deferred deferred := fun _ e h => ⟨e, h, le_rfl⟩

theorem Keeps.trans {d₁ d₂ d₃ : SetAside} (h₁ : Keeps d₁ d₂) (h₂ : Keeps d₂ d₃) : Keeps d₁ d₃ := by
  intro k e he
  obtain ⟨e', he', hle⟩ := h₁ k e he
  obtain ⟨e'', he'', hle'⟩ := h₂ k e' he'
  exact ⟨e'', he'', hle.trans hle'⟩

/-- What `saveDeferred` can do: keep an entry that is at least as new, or store the item. -/
theorem saveDeferred_cases (now : ℕ) (deferred : SetAside) (item : WorkItem) (reason : Reason) :
    (saveDeferred now deferred item reason = deferred ∧
      ∃ e, deferred.lookup item.itemKey = some e ∧ item.rowVersion ≤ e.rowVersion) ∨
    ∃ e, saveDeferred now deferred item reason = deferred.insert item.itemKey e ∧
      e.rowVersion = item.rowVersion ∧ e.payload = item.wire ∧
      ∀ old, deferred.lookup item.itemKey = some old → old.rowVersion ≤ item.rowVersion := by
  unfold saveDeferred
  dsimp only
  cases hl : deferred.lookup item.itemKey with
  | none => exact .inr ⟨_, rfl, rfl, rfl, nofun⟩
  | some old =>
      dsimp only
      split
      · next hc =>
        simp only [Bool.and_eq_true, Bool.not_eq_true'] at hc
        exact .inl ⟨rfl, old, rfl, isNewer_some_false.mp hc.1⟩
      · next hc =>
        refine .inr ⟨_, rfl, rfl, rfl, ?_⟩
        rintro _ ⟨⟩
        rcases lt_or_ge old.rowVersion item.rowVersion with h | h
        · exact h.le
        · simp only [isNewer_some_false.mpr h, Bool.not_false, Bool.true_and, Bool.not_eq_true',
            Bool.not_eq_false, decide_eq_true_eq, Bool.and_eq_true] at hc
          have he : old.rowVersion = item.rowVersion := by
            unfold DeferredRow.rowVersion WorkItem.rowVersion
            rw [hc.1, hc.2]
          exact he.le

theorem saveDeferred_keeps (now : ℕ) (deferred : SetAside) (item : WorkItem) (reason : Reason) :
    Keeps deferred (saveDeferred now deferred item reason) := by
  rcases saveDeferred_cases now deferred item reason with ⟨h, -⟩ | ⟨e, h, hv, -, hold⟩
  · rw [h]
    exact Keeps.refl deferred
  · rw [h]
    intro k old hk
    rw [Table.lookup_insert_of]
    split
    · next he =>
      subst he
      exact ⟨e, rfl, by rw [hv]; exact hold old hk⟩
    · exact ⟨old, hk, le_rfl⟩

/-- The item's change is set aside afterwards, or a newer one. -/
theorem saveDeferred_holds (now : ℕ) (deferred : SetAside) (item : WorkItem) (reason : Reason) :
    ∃ e, (saveDeferred now deferred item reason).lookup item.itemKey = some e ∧
      item.rowVersion ≤ e.rowVersion := by
  rcases saveDeferred_cases now deferred item reason with ⟨h, he⟩ | ⟨e, h, hv, -, -⟩
  · rwa [h]
  · rw [h]
    exact ⟨e, AList.lookup_insert _, hv.ge⟩

/-- An entry was there before, or is the item's. -/
theorem saveDeferred_source {k : String × String} {e : DeferredRow}
    (h : (saveDeferred now deferred item reason).lookup k = some e) :
    deferred.lookup k = some e ∨
      k = item.itemKey ∧ e.rowVersion = item.rowVersion ∧ e.payload = item.wire := by
  rcases saveDeferred_cases now deferred item reason with ⟨hs, -⟩ | ⟨e', hs, hv, hp, -⟩
  · rw [hs] at h
    exact .inl h
  · rw [hs, Table.lookup_insert_of] at h
    split at h
    · next he => cases h; exact .inr ⟨he, hv, hp⟩
    · exact .inl h

theorem saveDeferred_faithful (hb : Built node item) (h : Faithful deferred) :
    Faithful (saveDeferred now deferred item reason) := by
  intro k e he
  rcases saveDeferred_source he with he | ⟨rfl, hv, hp⟩
  · exact h k e he
  · obtain ⟨hv, ho⟩ := RowVersion.mk.inj hv
    rw [hp, hv, ho]
    exact ⟨hb.wire_h, hb.wire_v, hb.wire_o⟩

/-! ### Clearing what is settled -/

theorem lookup_clearDeferred {k : String × String} :
    (clearDeferred deferred item).lookup k =
      if k = item.itemKey ∧ ∃ e, deferred.lookup k = some e ∧ e.version ≤ item.version then none
      else deferred.lookup k := by
  unfold clearDeferred
  cases hl : deferred.lookup item.itemKey with
  | none =>
      rw [if_neg]
      rintro ⟨rfl, e, he, -⟩
      rw [hl] at he
      cases he
  | some old =>
      dsimp only
      split
      · next hle =>
        rw [Table.lookup_erase_of]
        by_cases hk : k = item.itemKey
        · subst hk
          rw [if_pos rfl, if_pos ⟨rfl, old, hl, hle⟩]
        · rw [if_neg hk, if_neg (fun h => hk h.1)]
      · next hle =>
        rw [if_neg]
        rintro ⟨rfl, e, he, hve⟩
        rw [hl] at he
        cases he
        exact hle hve

theorem clearDeferred_sub {k : String × String} {e : DeferredRow}
    (h : (clearDeferred deferred item).lookup k = some e) : deferred.lookup k = some e := by
  rw [lookup_clearDeferred] at h
  split at h
  · cases h
  · exact h

/-- The version of the row that some dropped item covers. -/
def Dropped (dropped : List WorkItem) (k : String × String) (w : RowVersion) : Prop :=
  ∃ d ∈ dropped, d.itemKey = k ∧ w ≤ d.rowVersion

/-- **Clearing** after a pass: every answered item is covered or dropped, and a set-aside change of
its row with the same version number has an origin that does not sort above, or is stored. -/
theorem clearSettled_held {db : Database} {results : List (WorkItem × ItemResult)}
    {dropped : List WorkItem}
    (hans : ∀ e ∈ results, e.2 = .a ∨ e.2 = .s → e.1 ∈ dropped ∨ Covered db e.1)
    (htie : ∀ e ∈ results, ∀ old, deferred.lookup e.1.itemKey = some old →
      old.version = e.1.version → e.1.origin < old.origin →
      ∃ u, db.readVersion e.1.table.name e.1.hash = some u ∧ old.rowVersion ≤ u) :
    (∀ k e, (clearSettled deferred results).lookup k = some e → deferred.lookup k = some e) ∧
      ∀ k w, Held ⟨db, deferred⟩ k w →
        Held ⟨db, clearSettled deferred results⟩ k w ∨ Dropped dropped k w := by
  unfold clearSettled
  refine foldl_invariant (P := fun d => (∀ k e, d.lookup k = some e → deferred.lookup k = some e) ∧
    ∀ k w, Held ⟨db, deferred⟩ k w → Held ⟨db, d⟩ k w ∨ Dropped dropped k w) ?_
    ⟨fun _ _ h => h, fun _ _ h => .inl h⟩
  rintro d ⟨item, result⟩ he ⟨hsub, hheld⟩
  dsimp only
  split
  swap
  · exact ⟨hsub, hheld⟩
  next hr =>
  refine ⟨fun k e h => hsub k e (clearDeferred_sub h), fun k w hw => ?_⟩
  rcases hheld k w hw with (⟨u, hu, hwu⟩ | ⟨old, hold, hwo⟩) | hd
  · exact .inl (.inl ⟨u, hu, hwu⟩)
  · by_cases hc : k = item.itemKey ∧ ∃ e, d.lookup k = some e ∧ e.version ≤ item.version
    · obtain ⟨rfl, e, hde, hve⟩ := hc
      rw [hold] at hde
      cases hde
      -- The entry is removed: the item covers it, or it was stored already.
      rcases le_or_gt old.rowVersion item.rowVersion with hle | hlt
      · rcases hans _ he hr with hdrop | ⟨u, hu, hiu⟩
        · exact .inr ⟨item, hdrop, rfl, hwo.trans hle⟩
        · exact .inl (.inl ⟨u, hu, (hwo.trans hle).trans hiu⟩)
      · rcases RowVersion.lt_iff.mp hlt with h | ⟨hv, ho⟩
        · exact absurd h (not_lt.mpr hve)
        · obtain ⟨u, hu, hou⟩ := htie _ he old (hsub _ _ hold) hv.symm ho
          exact .inl (.inl ⟨u, hu, hwo.trans hou⟩)
    · refine .inl (.inr ⟨old, ?_, hwo⟩)
      show (clearDeferred d item).lookup k = some old
      rw [lookup_clearDeferred, if_neg hc, hold]
  · exact .inr hd

/-! ### One pass -/

/-- The state of a pass while it decides what to do with the changes still waiting. -/
structure SettleInv (node : Node) (store : Store) (items : List WorkItem) (f : Done) : Prop where
  grows : Grows store.db f.store.db
  keeps : Keeps store.deferred f.store.deferred
  source : ∀ k e, f.store.deferred.lookup k = some e →
    store.deferred.lookup k = some e ∨ ∃ i ∈ items, i.itemKey = k ∧ e.rowVersion = i.rowVersion
  faithful : Faithful store.deferred → Faithful f.store.deferred
  items : ∀ e ∈ f.results, e.1 ∈ items
  answered : ∀ e ∈ f.results, e.2 = .a ∨ e.2 = .s → e.1 ∈ f.dropped ∨ Covered f.store.db e.1
  aside : ∀ e ∈ f.results, e.2 = .d →
    ∃ old, f.store.deferred.lookup e.1.itemKey = some old ∧ e.1.rowVersion ≤ old.rowVersion

theorem settleWaiting_inv {f : Done} {entry : Waiting} (hb : ∀ i ∈ items, Built node i)
    (hi : entry.item ∈ items) (h : SettleInv node store items f) :
    SettleInv node store items (settleWaiting node env f entry) := by
  unfold settleWaiting
  split
  · refine ⟨h.grows, h.keeps, h.source, h.faithful, fun e he => ?_, fun e he hr => ?_,
      fun e he hr => ?_⟩
    all_goals rcases List.mem_append.mp he with he | he
    · exact h.items e he
    · rwa [List.mem_singleton.mp he]
    · exact (h.answered e he hr).imp (List.mem_append_left _) id
    · rw [List.mem_singleton.mp he]
      exact .inl (by simp)
    · exact h.aside e he hr
    · rw [List.mem_singleton.mp he] at hr
      cases hr
  · have hk := saveDeferred_keeps (env.at' .settle entry.item).now f.store.deferred entry.item
      entry.reason
    refine ⟨h.grows, h.keeps.trans hk, fun k e he => ?_,
      fun hf => saveDeferred_faithful (hb _ hi) (h.faithful hf), fun e he => ?_, fun e he hr => ?_,
      fun e he hr => ?_⟩
    · rcases saveDeferred_source he with he | ⟨rfl, hv, -⟩
      · exact h.source k e he
      · exact .inr ⟨_, hi, rfl, hv⟩
    all_goals rcases List.mem_append.mp he with he | he
    · exact h.items e he
    · rwa [List.mem_singleton.mp he]
    · exact h.answered e he hr
    · rw [List.mem_singleton.mp he] at hr
      rcases hr with hr | hr <;> cases hr
    · obtain ⟨old, ho, hle⟩ := h.aside e he hr
      obtain ⟨old', ho', hle'⟩ := hk _ _ ho
      exact ⟨old', ho', hle.trans hle'⟩
    · rw [List.mem_singleton.mp he]
      exact saveDeferred_holds _ _ _ _

theorem applyPackage_settled {fault : WorkItem → Option ℕ} {ordered : List WorkItem}
    {r : Database × List (WorkItem × ItemResult)}
    (h : applyPackage node.schema fault store.db ordered = some r) :
    SettleInv node store ordered ⟨⟨r.1, store.deferred⟩, r.2, []⟩ := by
  unfold applyPackage at h
  split at h
  · cases h
  have hres : ∀ e ∈ r.2, e.1 ∈ ordered ∧ e.2 ≠ .d ∧ Covered r.1 e.1 := by
    refine run_splits (P := fun pre acc =>
      ∀ e ∈ acc.2, e.1 ∈ pre ∧ e.2 ≠ .d ∧ Covered acc.1 e.1) (by simp) ?_ h
    intro pre item post acc acc' _ _ ih hstep e he
    have hold : e ∈ acc.2 → e.1 ∈ pre ++ [item] ∧ e.2 ≠ .d ∧ Covered acc'.1 e.1 := fun he =>
      ⟨List.mem_append_left _ (ih e he).1, (ih e he).2.1,
        (ih e he).2.2.grows (packageStep_grows hstep)⟩
    have hcov := packageStep_covers hstep
    rcases packageStep_cases hstep with ⟨-, rfl⟩ | ⟨-, -, db', -, rfl⟩ <;>
      rcases List.mem_append.mp he with he | he
    · exact hold he
    · obtain rfl := List.mem_singleton.mp he
      exact ⟨by simp, nofun, hcov⟩
    · exact hold he
    · obtain rfl := List.mem_singleton.mp he
      exact ⟨by simp, nofun, hcov⟩
  exact ⟨run_packageStep_grows h, Keeps.refl _, fun _ _ he => .inl he, id, fun e he => (hres e he).1,
    fun e he _ => .inr (hres e he).2.2, fun e he hr => absurd hr (hres e he).2.1⟩

theorem carefulPass_settled {ordered : List WorkItem} (hb : ∀ i ∈ ordered, Built node i) :
    SettleInv node store ordered
      ((carefulPass node env store.db ordered).waiting.foldl (settleWaiting node env)
        ⟨⟨(carefulPass node env store.db ordered).db, store.deferred⟩,
          (carefulPass node env store.db ordered).results, []⟩) := by
  have hp : PassInv ordered store.db (carefulPass node env store.db ordered) := carefulPass_inv hb
  exact foldl_invariant (f := settleWaiting node env)
    (fun _ entry he h => settleWaiting_inv hb (hp.waiting entry he) h)
    ⟨hp.grows, Keeps.refl _, fun _ _ he => .inl he, id, fun e he => (hp.answered e he).1,
      fun e he hr => .inr ((hp.answered e he).2.2 hr),
      fun e he hr => absurd hr (hp.answered e he).2.1⟩

/-- What a pass leaves held: what was, and what it answers, up to what it drops. -/
structure PassHolds (store : Store) (f : Done) : Prop where
  kept : ∀ k w, Held store k w → Held f.store k w ∨ Dropped f.dropped k w
  answered : ∀ e ∈ f.results, e.2 ≠ .r →
    Held f.store e.1.itemKey e.1.rowVersion ∨ Dropped f.dropped e.1.itemKey e.1.rowVersion
  faithful : Faithful store.deferred → Faithful f.store.deferred

theorem SettleInv.held {f : Done} (h : SettleInv node store items f) {k : String × String}
    {w : RowVersion} (hw : Held store k w) : Held f.store k w := by
  rcases hw with ⟨u, hu, hwu⟩ | ⟨e, he, hwe⟩
  · obtain ⟨u', hu', hle⟩ := h.grows _ _ u hu
    exact .inl ⟨u', hu', hwu.trans hle⟩
  · obtain ⟨e', he', hle⟩ := h.keeps k e he
    exact .inr ⟨e', he', hwe.trans hle⟩

theorem SettleInv.holds {f : Done} (h : SettleInv node store items f) : PassHolds store f where
  kept _ _ hw := .inl (h.held hw)
  faithful := h.faithful
  answered e he hr := by
    cases hres : e.2 with
    | a | s =>
        rcases h.answered e he (by simp [hres]) with hd | hc
        · exact .inr ⟨e.1, hd, rfl, le_rfl⟩
        · exact .inl (.inl hc)
    | d => exact .inl (.inr (h.aside e he hres))
    | r => exact absurd hres hr

theorem SettleInv.cleared {f : Done} (h : SettleInv node store items f) (hu : Untied store items) :
    PassHolds store
      { f with store := { f.store with deferred := clearSettled f.store.deferred f.results } } := by
  obtain ⟨hsub, hheld⟩ := @clearSettled_held _ f.store.db _ _ h.answered fun e he old hold hv ho => by
    rcases h.source _ old hold with hs | ⟨j, hj, hk, hvj⟩
    · obtain ⟨u, hu', hle⟩ := hu.aside e.1 (h.items e he) old hs hv ho
      obtain ⟨u', hu'', hle'⟩ := h.grows _ _ u hu'
      exact ⟨u', hu'', hle.trans hle'⟩
    · -- The entry is that of another item of the pass.
      obtain ⟨hv', ho'⟩ := RowVersion.mk.inj hvj
      have := hu.items j hj e.1 (h.items e he) hk (hv' ▸ hv)
      rw [ho', this] at ho
      exact absurd ho (lt_irrefl _)
  refine ⟨fun k w hw => hheld k w (h.held hw), fun e he hr => ?_, fun hf k e he =>
    h.faithful hf k e (hsub k e he)⟩
  rcases h.holds.answered e he hr with hw | hd
  · exact hheld _ _ hw
  · exact .inr hd

theorem mem_orderItems : item ∈ orderItems items ↔ item ∈ items :=
  List.mem_insertionSort _

/-- **One pass** keeps what was held, and holds what it answers. -/
theorem processItems_holds (hb : ∀ i ∈ items, Built node i) (hu : Untied store items) :
    PassHolds store (processItems node env store items) := by
  have hb' : ∀ i ∈ orderItems items, Built node i := fun i hi => hb i (mem_orderItems.mp hi)
  have hu' : Untied store (orderItems items) :=
    ⟨fun i hi => hu.aside i (mem_orderItems.mp hi),
      fun i hi j hj => hu.items i (mem_orderItems.mp hi) j (mem_orderItems.mp hj)⟩
  unfold processItems
  dsimp only
  split
  · next db results hfast =>
    obtain ⟨fault, hr⟩ : ∃ fault,
        applyPackage node.schema fault store.db (orderItems items) = some (db, results) := by
      split at hfast
      · exact ⟨_, hfast⟩
      · cases hfast
    have h := applyPackage_settled hr
    split
    · exact h.cleared hu'
    · exact h.holds
  · have h := @carefulPass_settled node env store _ hb'
    split
    · exact h.cleared hu'
    · exact h.holds

/-! ### Runs of a receiver -/

/-- A node's store, and what it owes the peers it answered. -/
structure Receiver where
  store : Store
  owed : List ((String × String) × RowVersion)

inductive Receipt where
  | push (env : Surroundings) (fromPeer : String) (batches : List WireTableBatch)
  | retry (env : Surroundings) (now limit : ℕ)
  /-- A local write of one row, recorded by the triggers; `rows` are the rows afterwards. -/
  | write (table hash : String) (key : List String) (now : ℕ) (deleted : Bool)
      (rows : Table RowId Row)

/-- The answers that make the node responsible. -/
def answers (f : Done) : List ((String × String) × RowVersion) :=
  f.results.filterMap fun e => if e.2 = .r then none else some (e.1.itemKey, e.1.rowVersion)

/-- What is owed once some changes of rows are dropped. -/
def release (dropped owed : List ((String × String) × RowVersion)) :
    List ((String × String) × RowVersion) :=
  owed.filter fun o => !dropped.any fun d => d.1 = o.1 && o.2 ≤ d.2

def droppedBy (f : Done) : List ((String × String) × RowVersion) :=
  f.dropped.map fun item => (item.itemKey, item.rowVersion)

/-- The set-aside rows that `retryDeferred` drops before its pass. -/
def unusableRows (node : Node) (now limit : ℕ) (deferred : SetAside) :
    List ((String × String) × DeferredRow) :=
  (retryRows limit deferred).filter fun entry => (retryItem node now entry).isNone

def receive (node : Node) (r : Receiver) : Receipt → Option Receiver
  | .push env fromPeer batches =>
      let f := (applyPush node env r.store fromPeer batches).1
      some ⟨f.store, release (droppedBy f) (r.owed ++ answers f)⟩
  | .retry env now limit =>
      let unusable := unusableRows node now limit r.store.deferred
      let f := retryDeferred node env now limit r.store
      some ⟨f.store, release (droppedBy f)
        (release (unusable.map fun entry => (entry.1, entry.2.rowVersion)) r.owed ++ answers f)⟩
  | .write table hash key now deleted rows =>
      some { r with store := { r.store with
        db := { r.store.db.recordChange node.nodeId table hash key now deleted with rows } } }

/-- The condition on a step: no pushed change ties with a set-aside one of its row. -/
def NoTie (node : Node) (r : Receiver) : Receipt → Prop
  | .push _ fromPeer batches => Untied r.store (buildPush node fromPeer batches).1
  | .retry _ _ _ | .write _ _ _ _ _ _ => True

structure Responsible (r : Receiver) : Prop where
  held : ∀ o ∈ r.owed, Held r.store o.1 o.2
  faithful : Faithful r.store.deferred

theorem mem_release {dropped owed : List ((String × String) × RowVersion)}
    {o : (String × String) × RowVersion} :
    o ∈ release dropped owed ↔ o ∈ owed ∧ ∀ d ∈ dropped, d.1 = o.1 → ¬ o.2 ≤ d.2 := by
  simp [release]

theorem mem_answers {f : Done} {o : (String × String) × RowVersion} (h : o ∈ answers f) :
    ∃ e ∈ f.results, e.2 ≠ .r ∧ o = (e.1.itemKey, e.1.rowVersion) := by
  obtain ⟨e, he, ho⟩ := List.mem_filterMap.mp h
  split at ho
  · cases ho
  · next hr => exact ⟨e, he, hr, (Option.some.inj ho).symm⟩

/-- A pass from a store that holds what is owed. -/
theorem PassHolds.responsible {f : Done} {owed : List ((String × String) × RowVersion)}
    (h : PassHolds store f) (ho : ∀ o ∈ owed, Held store o.1 o.2) (hf : Faithful store.deferred) :
    Responsible ⟨f.store, release (droppedBy f) (owed ++ answers f)⟩ := by
  refine ⟨fun o hmem => ?_, h.faithful hf⟩
  obtain ⟨hmem, hnot⟩ := mem_release.mp hmem
  have hnd : ¬ Dropped f.dropped o.1 o.2 := fun ⟨d, hd, hk, hle⟩ =>
    hnot (d.itemKey, d.rowVersion) (List.mem_map.mpr ⟨d, hd, rfl⟩) hk hle
  rcases List.mem_append.mp hmem with hmem | hmem
  · exact (h.kept o.1 o.2 (ho o hmem)).resolve_right hnd
  · obtain ⟨e, he, hr, rfl⟩ := mem_answers hmem
    exact (h.answered e he hr).resolve_right hnd

theorem buildPush_built {fromPeer : String} {batches : List WireTableBatch} :
    ∀ i ∈ (buildPush node fromPeer batches).1, Built node i := by
  intro i hi
  obtain ⟨⟨⟨batch, wire⟩, slot⟩, -, h⟩ := List.mem_filterMap.mp hi
  dsimp only at h
  split at h
  · cases h
  · next table ht =>
    have ht' : node.table? table.name = some table := by rw [table?_name ht, ht]
    split at h
    · cases h
    · next item hb =>
      cases h
      obtain ⟨⟨h₁, h₂, h₃, h₄, h₅⟩, -⟩ := buildWorkItem_ok ht' hb
      exact ⟨h₁, h₂, h₃, h₄, h₅⟩

/-- A retried item is the change that was set aside. -/
theorem retryItem_some {now : ℕ} {entry : (String × String) × DeferredRow}
    (hf : entry.2.payload.item.h = entry.1.2 ∧ entry.2.payload.item.v = entry.2.version ∧
      entry.2.payload.item.o = entry.2.origin)
    (h : retryItem node now entry = some item) :
    Built node item ∧ item.itemKey = entry.1 ∧ item.rowVersion = entry.2.rowVersion := by
  unfold retryItem at h
  split at h
  · cases h
  next table ht =>
  have ht' : node.table? table.name = some table := by rw [table?_name ht, ht]
  split at h
  · cases h
  next built hb =>
  split at h
  · cases h
  cases h
  obtain ⟨⟨h₁, h₂, h₃, h₄, h₅⟩, htab, hwire, -⟩ := buildWorkItem_ok ht' hb
  have hh : built.hash = entry.1.2 := by rw [← h₃, hwire]; exact hf.1
  have hv : built.version = entry.2.version := by rw [← h₄, hwire]; exact hf.2.1
  have ho : built.origin = entry.2.origin := by rw [← h₅, hwire]; exact hf.2.2
  refine ⟨⟨h₁, h₂, h₃, h₄, h₅⟩, Prod.ext ?_ hh, ?_⟩
  · show built.table.name = entry.1.1
    rw [htab, table?_name ht]
  · unfold WorkItem.rowVersion DeferredRow.rowVersion
    dsimp only
    rw [hv, ho]

theorem mem_retryRows {limit : ℕ} {deferred : SetAside} {entry : (String × String) × DeferredRow}
    (h : entry ∈ retryRows limit deferred) : deferred.lookup entry.1 = some entry.2 :=
  Table.mem_toList.mp ((List.mem_insertionSort _).mp (List.mem_of_mem_take h))

/-- The set-aside table after its unusable rows are dropped. -/
theorem erase_unusable {rows : List ((String × String) × DeferredRow)} {k : String × String} :
    (rows.foldl (fun deferred entry => deferred.erase entry.1) deferred).lookup k =
      if k ∈ rows.map Prod.fst then none else deferred.lookup k := by
  induction rows generalizing deferred with
  | nil => rfl
  | cons entry rows ih =>
      rw [List.foldl_cons, ih, Table.lookup_erase_of, List.map_cons]
      by_cases h : k = entry.1
      · rw [if_pos h, if_pos (List.mem_cons.mpr (.inl h)), ite_self]
      · simp only [List.mem_cons, h, false_or, if_false]

theorem receive_responsible {r r' : Receiver} {a : Receipt} (hr : Responsible r)
    (hok : NoTie node r a) (h : receive node r a = some r') : Responsible r' := by
  cases a with
  | push env fromPeer batches =>
      cases h
      exact (processItems_holds buildPush_built hok).responsible hr.held hr.faithful
  | write table hash key now deleted rows =>
      cases h
      refine ⟨fun o ho => ?_, hr.faithful⟩
      rcases hr.held o ho with ⟨u, hu, hle⟩ | hset
      · obtain ⟨u', hu', hle'⟩ : ∃ u', (r.store.db.recordChange node.nodeId table hash key now
            deleted).readVersion o.1.1 o.1.2 = some u' ∧ u ≤ u' := by
          exact recordChange_grows _ _ _ _ _ _ _ _ _ u hu
        exact .inl ⟨u', hu', hle.trans hle'⟩
      · exact .inr hset
  | retry env now limit =>
      cases h
      have hf := hr.faithful
      set unusable := unusableRows node now limit r.store.deferred with hun
      -- The store without the unusable rows holds what is still owed.
      set store : Store := { r.store with
        deferred := unusable.foldl (fun deferred entry => deferred.erase entry.1)
          r.store.deferred } with hstore
      have hlook : ∀ k, store.deferred.lookup k =
          if k ∈ unusable.map Prod.fst then none else r.store.deferred.lookup k :=
        fun k => erase_unusable
      have hf' : Faithful store.deferred := fun k e he => by
        rw [hlook] at he
        split at he
        · cases he
        · exact hf k e he
      have howed : ∀ o ∈ release (unusable.map fun entry => (entry.1, entry.2.rowVersion)) r.owed,
          Held store o.1 o.2 := by
        intro o ho
        obtain ⟨ho, hnot⟩ := mem_release.mp ho
        rcases hr.held o ho with hreg | ⟨e, he, hle⟩
        · exact .inl hreg
        · refine .inr ⟨e, ?_, hle⟩
          rw [hlook, if_neg, he]
          intro hk
          obtain ⟨entry, hentry, hfst⟩ := List.mem_map.mp hk
          have hmem := mem_retryRows (List.mem_of_mem_filter hentry)
          rw [hfst, he] at hmem
          refine hnot _ (List.mem_map.mpr ⟨entry, hentry, rfl⟩) hfst ?_
          rwa [← Option.some.inj hmem]
      -- The retried items have different rows, and the versions of their entries.
      have hitems : ∀ i ∈ (retryRows limit r.store.deferred).filterMap (retryItem node now),
          Built node i ∧ ∃ e, r.store.deferred.lookup i.itemKey = some e ∧
            i.rowVersion = e.rowVersion := by
        intro i hi
        obtain ⟨entry, hentry, hsome⟩ := List.mem_filterMap.mp hi
        have hmem := mem_retryRows hentry
        obtain ⟨hb, hk, hv⟩ := retryItem_some (hf _ _ hmem) hsome
        exact ⟨hb, entry.2, by rw [hk, hmem], hv⟩
      refine (@processItems_holds node env store _ (fun i hi => (hitems i hi).1)
        ⟨fun i hi e he hv ho => ?_, fun i hi j hj hk _ => ?_⟩).responsible howed hf'
      · obtain ⟨-, e', he', hv'⟩ := hitems i hi
        rw [hlook] at he
        split at he
        · cases he
        · rw [he'] at he
          cases he
          rw [show i.origin = e.origin from (RowVersion.mk.inj hv').2] at ho
          exact absurd ho (lt_irrefl _)
      · obtain ⟨-, e, he, hvi⟩ := hitems i hi
        obtain ⟨-, e', he', hvj⟩ := hitems j hj
        rw [hk, he'] at he
        cases he
        have := hvi.trans hvj.symm
        exact (RowVersion.mk.inj this).2

/-- **Responsibility.**  A node with nothing set aside starts to receive pushes, to retry what it
sets aside and to be written locally.  As long as no pushed change ties with one that is set aside
for its row, it holds every change it answered `a`, `s` or `d`, until that one or a newer one of
the row is dropped. -/
theorem responsibility (node : Node) (db : Database) (acts : List Receipt) (r : Receiver)
    (hok : Meets (receive node) (NoTie node) ⟨⟨db, ∅⟩, []⟩ acts)
    (h : run (receive node) ⟨⟨db, ∅⟩, []⟩ acts = some r) :
    ∀ o ∈ r.owed, Held r.store o.1 o.2 := by
  refine (run_invariant_of_meets (P := Responsible)
    (fun _ _ _ hr hok hstep => receive_responsible hr hok hstep) ⟨by simp, fun k e he => ?_⟩ hok
    h).held
  rw [AList.lookup_empty] at he
  cases he

/-- A comment on an unknown reminder is set aside, and retried. -/
def orphanComment : List Receipt :=
  [.push calm "B" (commentPush "c9" 5 "B" "r9" "late"), .retry calm 0 200]

theorem responsibility_orphanComment :
    ∃ r, run (receive reminderNode) ⟨⟨⟨reminderRows, ∅, 1⟩, ∅⟩, []⟩ orphanComment = some r ∧
      r.owed ≠ [] ∧ ∀ o ∈ r.owed, Held r.store o.1 o.2 := by
  obtain ⟨r, hr, howed⟩ := Option.map_eq_some_iff.mp
    (show (run (receive reminderNode) ⟨⟨⟨reminderRows, ∅, 1⟩, ∅⟩, []⟩ orphanComment).map
        Receiver.owed = some (List.replicate 2 (("comments", "#c9"), ⟨5, "B"⟩)) by decide)
  have huntied : Untied ⟨⟨reminderRows, ∅, 1⟩, ∅⟩
      (buildPush reminderNode "B" (commentPush "c9" 5 "B" "r9" "late")).1 := by
    refine ⟨fun i _ e he => ?_, by decide⟩
    rw [AList.lookup_empty] at he
    cases he
  exact ⟨r, hr, by rw [howed]; decide, responsibility reminderNode ⟨reminderRows, ∅, 1⟩ orphanComment r
    ⟨huntied, fun _ _ => ⟨trivial, fun _ _ => trivial⟩⟩ hr⟩

/-- Two versions of a comment with one version number: the one of `B` waits for its reminder, the
one of `A` is on a reminder that is there. -/
def tiedComments : List Receipt :=
  [.push calm "B" (commentPush "c9" 5 "B" "r9" "late"),
    .push calm "A" (commentPush "c9" 5 "A" "r1" "early")]

/-- The newer version is owed, and lost. -/
theorem responsibility_fails_tiedComments :
    ∃ r, run (receive reminderNode) ⟨⟨⟨reminderRows, ∅, 1⟩, ∅⟩, []⟩ tiedComments = some r ∧
      (("comments", "#c9"), ⟨5, "B"⟩) ∈ r.owed ∧ ¬ Held r.store ("comments", "#c9") ⟨5, "B"⟩ := by
  obtain ⟨r, hr, hv⟩ := Option.map_eq_some_iff.mp
    (show (run (receive reminderNode) ⟨⟨⟨reminderRows, ∅, 1⟩, ∅⟩, []⟩ tiedComments).map
        (fun r => (r.owed, r.store.db.readVersion "comments" "#c9",
          (r.store.deferred.lookup ("comments", "#c9")).isSome)) =
      some ([(("comments", "#c9"), ⟨5, "B"⟩), (("comments", "#c9"), ⟨5, "A"⟩)],
        some ⟨5, "A"⟩, false) by decide)
  simp only [Prod.mk.injEq] at hv
  obtain ⟨howed, hver, hset⟩ := hv
  refine ⟨r, hr, by rw [howed]; exact List.mem_cons_self, ?_⟩
  rintro (⟨u, hu, hle⟩ | ⟨e, he, -⟩)
  · rw [hver] at hu
    cases hu
    exact absurd hle (by decide)
  · rw [he] at hset
    cases hset

end Pokyh.Cluster

import Mathlib.Data.List.Nodup
import Pokyh.Lib.Logs
import Pokyh.Lib.Runs

/-!
# School — DueItems

Notifications of due to-dos and reminders (`services/pushPoller.ts`, `checkDueItems`): passes that may overlap, each
reading what is due, sending for one item after the other and marking each, while items are edited.

* `Event.Once`: no item is sent for twice at one due time.
* `awaited`: the due time that an item was given while a pass was sending for it, if nothing has been sent since.
* `due_items_notified`: **an item is sent for at most once a due time, and one that is awaited is found by the next pass
  at its time**, in runs whose passes do not overlap on an item and mark only what they sent for.
* `moved_item_lost`: an item moved while a pass was sending for it is never sent for again.
-/

namespace Pokyh.School.DueItems
open Pokyh.Lib

/-- Milliseconds. -/
abbrev Time := ℕ

inductive Kind where
  | todo
  | reminder
  deriving DecidableEq, Repr

/-- A to-do or a reminder, by its id. -/
structure Key where
  kind : Kind
  id : String
  deriving DecidableEq, Repr

/-- A row of `todos` (`dueAt`, `done`) or of `reminders` (`remindAt`). -/
structure Item where
  key : Key
  dueAt : Option Time
  done : Bool
  archivedAt : Option Time
  notifiedAt : Option Time
  deriving DecidableEq, Repr

/-- An item and the due time that a pass has read. -/
abbrev Due := Key × Time

/-- An item that is to be sent for, and when it was due. -/
def Item.dueBy (now : Time) (i : Item) : Option Time :=
  i.dueAt.filter fun d => d ≤ now && i.notifiedAt.isNone && !i.done && i.archivedAt.isNone

/-- What a pass reads: the due items of a kind that this node has. -/
def dueItems (items : List Item) (kind : Kind) (now : Time) (owned : List Key) : List Due :=
  items.filterMap fun i => if i.key.kind = kind && i.key ∈ owned then (i.dueBy now).map (i.key, ·) else none

/-- A pass of `checkDueItems` between two of its steps. -/
inductive Pass where
  | find (kind : Kind) (now : Time)
  /-- About to send for the first of these. -/
  | send (kind : Kind) (now : Time) (due : List Due)
  /-- Sending, then to mark the item. -/
  | mark (kind : Kind) (now : Time) (sent : Due) (due : List Due)
  deriving DecidableEq, Repr

/-- The items that a pass has read and not marked. -/
def Pass.held : Pass → List Due
  | .find _ _ => []
  | .send _ _ due => due
  | .mark _ _ sent due => sent :: due

/-- When a pass began. -/
def Pass.now : Pass → Time
  | .find _ now | .send _ now _ | .mark _ now _ _ => now

/-- The item that a pass is sending for. -/
def Pass.sending : Pass → Option Due
  | .mark _ _ sent _ => some sent
  | _ => none

/-- The items that a pass has yet to send for. -/
def Pass.queued : Pass → List Due
  | .find _ _ => []
  | .send _ _ due => due
  | .mark _ _ _ due => due

/-- What a run is about, as it happens. -/
inductive Event where
  | sent (due : Due)
  /-- The due time is moved to the future while a pass is sending for the item. -/
  | postponed (due : Due)
  | moved (key : Key)
  deriving DecidableEq, Repr

/-- The due time that an item was given while a pass was sending for it, unless it was moved or sent for since. -/
def awaited (key : Key) : List Event → Option Time
  | [] => none
  | .postponed due :: log => if due.1 = key then some due.2 else awaited key log
  | .moved k :: log => if k = key then none else awaited key log
  | .sent due :: log => if due.1 = key then (awaited key log).filter (· ≠ due.2) else awaited key log

structure World where
  items : List Item
  passes : List Pass
  /-- Every key that an item has had. -/
  keys : List Key
  log : List Event
  clock : Time
  deriving DecidableEq, Repr

def World.empty : World := ⟨[], [], [], [], 0⟩

def World.isSending (w : World) (key : Key) : Bool := w.passes.any fun p => p.sending.any (·.1 = key)

def World.update (w : World) (key : Key) (data : Item → Item) : World :=
  { w with items := w.items.map fun i => if i.key = key then data i else i }

/-- The next step of a pass; `owned` are the items that its node has when it reads them. -/
def World.goOn (w : World) (owned : List Key) : Pass → World
  | .find kind now => { w with passes := .send kind now (dueItems w.items kind now owned) :: w.passes }
  | .send kind now [] =>
      match kind with
      | .todo => { w with passes := .find .reminder now :: w.passes }
      | .reminder => w
  -- a push that does not get through counts like one that does
  | .send kind now (d :: due) => { w with passes := .mark kind now d due :: w.passes, log := .sent d :: w.log }
  | .mark kind now sent due =>
      -- an update of a row that is gone fails, and the pass with it
      if w.items.any (·.key = sent.1) then
        { w.update sent.1 fun i => { i with notifiedAt := some now } with passes := .send kind now due :: w.passes }
      else w

/-- An edit of a due time. -/
def World.setDueEvent (w : World) (key : Key) (now : Time) : Option Time → Event
  | some d => if now < d && w.isSending key then .postponed (key, d) else .moved key
  | none => .moved key

inductive Move where
  | checkDueItems (now : Time)
  | goOn (pass : Pass) (owned : List Key)
  /-- A query fails or the process ends. -/
  | giveUp (pass : Pass)
  | create (key : Key) (dueAt : Option Time)
  | setDue (key : Key) (dueAt : Option Time) (now : Time)
  | setDone (key : Key) (done : Bool)
  | setArchived (key : Key) (archivedAt : Option Time)
  | delete (key : Key)
  deriving DecidableEq, Repr

def World.step (w : World) : Move → Option World
  | .checkDueItems now => if w.clock ≤ now then some { w with clock := now, passes := .find .todo now :: w.passes } else none
  | .goOn pass owned => if pass ∈ w.passes then some ({ w with passes := w.passes.erase pass }.goOn owned pass) else none
  | .giveUp pass => if pass ∈ w.passes then some { w with passes := w.passes.erase pass } else none
  | .create key dueAt =>
      if key ∈ w.keys then none
      else some { w with items := w.items ++ [⟨key, dueAt, false, none, none⟩], keys := key :: w.keys }
  | .setDue key dueAt now =>
      if w.clock ≤ now then
        some { w.update key fun i => { i with dueAt := dueAt } with log := w.setDueEvent key now dueAt :: w.log, clock := now }
      else none
  | .setDone key done => some (w.update key fun i => { i with done := done })
  | .setArchived key archivedAt => some (w.update key fun i => { i with archivedAt := archivedAt })
  | .delete key => some { w with items := w.items.filter (·.key ≠ key) }

/-! ### What should hold -/

/-- Nothing is sent twice for one due time. -/
def Event.Once (later earlier : Event) : Prop := ∃ due, later = .sent due ∧ earlier = .sent due

/-- A pass reads no item that another one has read and not marked, and marks an item that has the due time it sent for.
One that ends in between leaves no such item behind, and no item that a pass failed to mark is moved back to the
time it was sent for. -/
def World.careful (w : World) : Move → Bool
  | .goOn (.find kind now) owned =>
      (dueItems w.items kind now owned).all fun d => w.passes.all fun p => p.held.all fun d' => d'.1 ≠ d.1
  | .goOn (.mark _ _ sent _) _ => w.items.all fun i => i.key ≠ sent.1 || i.dueAt = some sent.2
  | .giveUp (.mark _ _ sent _) =>
      w.items.all fun i => i.key ≠ sent.1 || i.dueAt ≠ some sent.2 || i.notifiedAt.isSome
  | .setDue key (some d) _ =>
      .sent (key, d) ∉ w.log || w.items.all (fun i => i.key ≠ key || i.notifiedAt.isSome) ||
        w.passes.any (·.sending = some (key, d))
  | _ => true

/-! ### What a pass reads -/

variable {w w' : World} {key : Key} {d : Time}

theorem mem_dueItems {items : List Item} {kind : Kind} {now : Time} {owned : List Key} {due : Due} :
    due ∈ dueItems items kind now owned ↔
      ∃ i ∈ items, i.key = due.1 ∧ i.key.kind = kind ∧ i.key ∈ owned ∧ i.dueAt = some due.2 ∧ due.2 ≤ now ∧
        i.notifiedAt = none ∧ i.done = false ∧ i.archivedAt = none := by
  rw [dueItems, List.mem_filterMap]
  refine exists_congr fun i => and_congr_right fun _ => ?_
  rw [Option.ite_none_right_eq_some, Option.map_eq_some_iff, Bool.and_eq_true, decide_eq_true_eq, decide_eq_true_eq]
  constructor
  · rintro ⟨⟨hkind, howned⟩, d, hdue, rfl⟩
    rw [Item.dueBy, Option.filter_eq_some_iff] at hdue
    simp only [Bool.and_eq_true, decide_eq_true_eq, Option.isNone_iff_eq_none, Bool.not_eq_true'] at hdue
    obtain ⟨hdue, ⟨⟨hle, hunmarked⟩, hdone⟩, harchived⟩ := hdue
    exact ⟨rfl, hkind, howned, hdue, hle, hunmarked, hdone, harchived⟩
  · rintro ⟨hkey, hkind, howned, hdue, hle, hunmarked, hdone, harchived⟩
    refine ⟨⟨hkind, howned⟩, due.2, ?_, by rw [hkey]⟩
    rw [Item.dueBy, Option.filter_eq_some_iff]
    exact ⟨hdue, by simp [hle, hunmarked, hdone, harchived]⟩

/-- A pass reads every item once. -/
theorem dueItems_sublist {items : List Item} {kind : Kind} {now : Time} {owned : List Key} :
    ((dueItems items kind now owned).map Prod.fst).Sublist (items.map Item.key) := by
  induction items with
  | nil => exact List.Sublist.refl _
  | cons i items ih =>
      rw [dueItems, List.filterMap_cons, List.map_cons]
      split
      case h_1 => exact ih.cons _
      case h_2 due hdue =>
        obtain ⟨-, hmap⟩ := Option.ite_none_right_eq_some.mp hdue
        obtain ⟨d, -, rfl⟩ := Option.map_eq_some_iff.mp hmap
        exact ih.cons_cons _

/-! ### What every careful step keeps -/

/-- The items that the passes have read and not marked. -/
def World.heldKeys (w : World) : List Key := w.passes.flatMap fun p => p.held.map Prod.fst

/-- **The invariant of careful runs.** -/
structure Kept (w : World) : Prop where
  once : Sound Event.Once w.log
  nodup : (w.items.map Item.key).Nodup
  known : ∀ i ∈ w.items, i.key ∈ w.keys
  sentKnown : ∀ due, .sent due ∈ w.log → due.1 ∈ w.keys
  heldKnown : ∀ p ∈ w.passes, ∀ due ∈ p.held, due.1 ∈ w.keys ∧ due.2 ≤ w.clock
  begun : ∀ p ∈ w.passes, p.now ≤ w.clock
  alone : w.heldKeys.Nodup
  unmarked : ∀ p ∈ w.passes, ∀ due ∈ p.held, ∀ i ∈ w.items, i.key = due.1 → i.notifiedAt = none
  unsent : ∀ p ∈ w.passes, ∀ due ∈ p.queued, .sent due ∉ w.log
  /-- An item that has been sent for at its due time is marked, or about to be. -/
  sent : ∀ due, .sent due ∈ w.log → ∀ i ∈ w.items, i.key = due.1 →
    i.notifiedAt.isSome = true ∨ i.dueAt ≠ some due.2 ∨ ∃ p ∈ w.passes, p.sending = some due
  awaits : ∀ key d, awaited key w.log = some d → key ∈ w.keys ∧
    (∀ i ∈ w.items, i.key = key → i.dueAt = some d ∧ i.notifiedAt = none) ∧ ∀ p ∈ w.passes, p.sending ≠ some (key, d)

theorem kept_empty : Kept .empty where
  once := .nil
  nodup := List.nodup_nil
  known := nofun
  sentKnown := nofun
  heldKnown := nofun
  begun := nofun
  alone := List.nodup_nil
  unmarked := nofun
  unsent := nofun
  sent := nofun
  awaits := nofun

theorem Kept.nodup_swap (h : Kept w) {p : Pass} (hp : p ∈ w.passes) :
    (p.held.map Prod.fst ++ (w.passes.erase p).flatMap fun q => q.held.map Prod.fst).Nodup := by
  have hperm : List.Perm w.heldKeys ((p :: w.passes.erase p).flatMap fun q => q.held.map Prod.fst) :=
    (List.perm_cons_erase hp).flatMap_right _
  rw [List.flatMap_cons] at hperm
  exact hperm.nodup_iff.mp h.alone

/-- No other pass has what one has. -/
theorem Kept.others (h : Kept w) {p q : Pass} (hp : p ∈ w.passes) (hq : q ∈ w.passes.erase p) {due due' : Due}
    (hdue : due ∈ p.held) (hdue' : due' ∈ q.held) : due.1 ≠ due'.1 := by
  have hdisjoint := (List.nodup_append.mp (h.nodup_swap hp)).2.2
  exact hdisjoint due.1 (List.mem_map_of_mem hdue) due'.1 (List.mem_flatMap.mpr ⟨q, hq, List.mem_map_of_mem hdue'⟩)

theorem Pass.held_of_queued {p : Pass} {due : Due} (h : due ∈ p.queued) : due ∈ p.held := by
  cases p with
  | find => cases h
  | send => exact h
  | mark => exact List.mem_cons_of_mem _ h

theorem Pass.held_of_sending {p : Pass} {due : Due} (h : p.sending = some due) : due ∈ p.held := by
  cases p with
  | find | send => cases h
  | mark => cases h; exact List.mem_cons_self

/-- A pass goes on with some of what it had, or ends; what it was sending for is gone, marked or moved. -/
theorem Kept.swap (h : Kept w) {p : Pass} (hp : p ∈ w.passes) (qs : List Pass)
    (hheld : (qs.flatMap fun q => q.held.map Prod.fst).Sublist (p.held.map Prod.fst))
    (hqs : ∀ q ∈ qs, (∀ due ∈ q.held, due ∈ p.held) ∧ (∀ due ∈ q.queued, due ∈ p.queued) ∧ q.sending = none)
    (hnow : ∀ q ∈ qs, q.now = p.now)
    (hsending : ∀ due, p.sending = some due → ∀ i ∈ w.items, i.key = due.1 →
      i.notifiedAt.isSome = true ∨ i.dueAt ≠ some due.2) : Kept { w with passes := qs ++ w.passes.erase p } := by
  have hfrom : ∀ q ∈ qs ++ w.passes.erase p, ∀ due ∈ q.held, ∃ q' ∈ w.passes, due ∈ q'.held := by
    intro q hq due hdue
    rcases List.mem_append.mp hq with hnew | hold
    · exact ⟨p, hp, (hqs q hnew).1 due hdue⟩
    · exact ⟨q, List.mem_of_mem_erase hold, hdue⟩
  exact
    { h with
      heldKnown := fun q hq due hdue => by
        obtain ⟨q', hq', hdue'⟩ := hfrom q hq due hdue
        exact h.heldKnown q' hq' due hdue'
      begun := fun q hq => by
        rcases List.mem_append.mp hq with hnew | hold
        · rw [hnow q hnew]
          exact h.begun p hp
        · exact h.begun q (List.mem_of_mem_erase hold)
      alone := by
        rw [World.heldKeys, List.flatMap_append]
        exact (h.nodup_swap hp).sublist (hheld.append_right _)
      unmarked := fun q hq due hdue => by
        obtain ⟨q', hq', hdue'⟩ := hfrom q hq due hdue
        exact h.unmarked q' hq' due hdue'
      unsent := fun q hq due hdue => by
        rcases List.mem_append.mp hq with hnew | hold
        · exact h.unsent p hp due ((hqs q hnew).2.1 due hdue)
        · exact h.unsent q (List.mem_of_mem_erase hold) due hdue
      sent := fun due hmem i hi hkey => by
        rcases h.sent due hmem i hi hkey with hmarked | hmoved | ⟨q, hq, hqsending⟩
        · exact .inl hmarked
        · exact .inr (.inl hmoved)
        · by_cases hqp : q = p
          · subst hqp
            exact (hsending due hqsending i hi hkey).imp_right .inl
          · exact .inr (.inr ⟨q, List.mem_append_right _ ((List.mem_erase_of_ne hqp).mpr hq), hqsending⟩)
      awaits := fun key d hawaited => by
        obtain ⟨hkey, hitems, hnot⟩ := h.awaits key d hawaited
        refine ⟨hkey, hitems, fun q hq => ?_⟩
        rcases List.mem_append.mp hq with hnew | hold
        · rw [(hqs q hnew).2.2]
          nofun
        · exact hnot q (List.mem_of_mem_erase hold) }

/-- A pass ends. -/
theorem Kept.erase (h : Kept w) {p : Pass} (hp : p ∈ w.passes)
    (hsending : ∀ due, p.sending = some due → ∀ i ∈ w.items, i.key = due.1 →
      i.notifiedAt.isSome = true ∨ i.dueAt ≠ some due.2) : Kept { w with passes := w.passes.erase p } := by
  have hk := h.swap hp [] (List.nil_sublist _) nofun nofun hsending
  exact hk

theorem Kept.find (h : Kept w) {kind : Kind} {now : Time} {owned : List Key} (hp : .find kind now ∈ w.passes)
    (hcareful : w.careful (.goOn (.find kind now) owned) = true) :
    Kept ({ w with passes := w.passes.erase (.find kind now) }.goOn owned (.find kind now)) := by
  have hothers : ∀ due ∈ dueItems w.items kind now owned, ∀ p ∈ w.passes, ∀ due' ∈ p.held, due'.1 ≠ due.1 := by
    intro due hdue p hp due' hdue'
    have hall := List.all_eq_true.mp (List.all_eq_true.mp (List.all_eq_true.mp hcareful due hdue) p hp) due' hdue'
    exact of_decide_eq_true hall
  have hk := h.erase hp nofun
  have hbegun := h.begun _ hp
  have hmem : ∀ {q}, q ∈ w.passes.erase (.find kind now) → q ∈ w.passes := List.mem_of_mem_erase
  exact
    { hk with
      heldKnown := fun q hq due hdue => by
        rcases List.mem_cons.mp hq with rfl | hold
        · obtain ⟨i, hi, hkey, -, -, -, hle, -⟩ := mem_dueItems.mp hdue
          exact ⟨hkey ▸ h.known i hi, Nat.le_trans hle (h.begun _ hp)⟩
        · exact hk.heldKnown q hold due hdue
      begun := fun q hq => by
        rcases List.mem_cons.mp hq with rfl | hold
        · exact hbegun
        · exact hk.begun q hold
      alone := by
        rw [World.heldKeys, World.goOn, List.flatMap_cons]
        refine List.nodup_append.mpr ⟨dueItems_sublist.nodup h.nodup, hk.alone, fun key hkey key' hkey' heq => ?_⟩
        obtain ⟨due, hdue, rfl⟩ := List.mem_map.mp hkey
        obtain ⟨q, hq, hkey'⟩ := List.mem_flatMap.mp hkey'
        obtain ⟨due', hdue', rfl⟩ := List.mem_map.mp hkey'
        exact hothers due hdue q (hmem hq) due' hdue' heq.symm
      unmarked := fun q hq due hdue i hi hkey => by
        rcases List.mem_cons.mp hq with rfl | hold
        · obtain ⟨i', hi', hkey', -, -, -, -, hunmarked, -⟩ := mem_dueItems.mp hdue
          obtain rfl := List.inj_on_of_nodup_map h.nodup hi hi' (hkey.trans hkey'.symm)
          exact hunmarked
        · exact hk.unmarked q hold due hdue i hi hkey
      unsent := fun q hq due hdue hsent => by
        rcases List.mem_cons.mp hq with rfl | hold
        · obtain ⟨i, hi, hkey, -, -, hat, -, hunmarked, -⟩ := mem_dueItems.mp hdue
          rcases h.sent due hsent i hi hkey with hmarked | hmoved | ⟨q, hq, hsending⟩
          · rw [hunmarked] at hmarked
            cases hmarked
          · exact hmoved hat
          · exact hothers due hdue q hq due (Pass.held_of_sending hsending) rfl
        · exact hk.unsent q hold due hdue hsent
      sent := fun due hsent i hi hkey => (hk.sent due hsent i hi hkey).imp_right fun hor =>
        hor.imp_right fun ⟨q, hq, hsending⟩ => ⟨q, List.mem_cons_of_mem _ hq, hsending⟩
      awaits := fun key d hawaited => by
        obtain ⟨hkey, hitems, hnot⟩ := hk.awaits key d hawaited
        refine ⟨hkey, hitems, fun q hq => ?_⟩
        rcases List.mem_cons.mp hq with rfl | hold
        · nofun
        · exact hnot q hold }

theorem Kept.send (h : Kept w) {kind : Kind} {now : Time} {due : List Due} {owned : List Key}
    (hp : .send kind now due ∈ w.passes) :
    Kept ({ w with passes := w.passes.erase (.send kind now due) }.goOn owned (.send kind now due)) := by
  cases due with
  | nil =>
      cases kind with
      | todo =>
          refine h.swap hp [.find .reminder now] (List.Sublist.refl _) (fun q hq => ?_) (fun q hq => ?_) nofun
          · rw [List.mem_singleton.mp hq]
            exact ⟨nofun, nofun, rfl⟩
          · rw [List.mem_singleton.mp hq]
            rfl
      | reminder => exact h.erase hp nofun
  | cons d due =>
      have hfresh : .sent d ∉ w.log := h.unsent _ hp d List.mem_cons_self
      have hsent : ∀ {due}, .sent due ∈ .sent d :: w.log → due = d ∨ .sent due ∈ w.log := fun hmem =>
        (List.mem_cons.mp hmem).imp_left fun heq => by cases heq; rfl
      have hheld := h.nodup_swap hp
      have hbegun := h.begun _ hp
      exact
        { h with
          once := h.once.cons fun e he => by
            rintro ⟨due', hdue', rfl⟩
            cases hdue'
            exact hfresh he
          sentKnown := fun due' hmem => (hsent hmem).elim (fun heq => heq ▸ (h.heldKnown _ hp d List.mem_cons_self).1)
            (h.sentKnown due')
          heldKnown := fun q hq due' hdue' => by
            rcases List.mem_cons.mp hq with rfl | hold
            · exact h.heldKnown _ hp due' hdue'
            · exact h.heldKnown q (List.mem_of_mem_erase hold) due' hdue'
          begun := fun q hq => by
            rcases List.mem_cons.mp hq with rfl | hold
            · exact hbegun
            · exact h.begun q (List.mem_of_mem_erase hold)
          alone := hheld
          unmarked := fun q hq due' hdue' => by
            rcases List.mem_cons.mp hq with rfl | hold
            · exact h.unmarked _ hp due' hdue'
            · exact h.unmarked q (List.mem_of_mem_erase hold) due' hdue'
          unsent := fun q hq due' hdue' hmem => by
            rcases hsent hmem with rfl | hold
            · rcases List.mem_cons.mp hq with rfl | hold
              · rw [List.nodup_append] at hheld
                exact (List.nodup_cons.mp hheld.1).1 (List.mem_map_of_mem hdue')
              · exact h.others hp hold List.mem_cons_self (Pass.held_of_queued hdue') rfl
            · rcases List.mem_cons.mp hq with rfl | hq
              · exact h.unsent _ hp due' (List.mem_cons_of_mem _ hdue') hold
              · exact h.unsent q (List.mem_of_mem_erase hq) due' hdue' hold
          sent := fun due' hmem i hi hkey => by
            rcases hsent hmem with rfl | hold
            · exact .inr (.inr ⟨_, List.mem_cons_self, rfl⟩)
            · refine (h.sent due' hold i hi hkey).imp_right fun hor => hor.imp_right fun ⟨q, hq, hsending⟩ => ?_
              exact ⟨q, List.mem_cons_of_mem _ ((List.mem_erase_of_ne (by rintro rfl; cases hsending)).mpr hq), hsending⟩
          awaits := fun key e hawaited => by
            have hold : awaited key w.log = some e ∧ (d.1 = key → e ≠ d.2) := by
              by_cases hkey : d.1 = key
              · simp only [World.goOn, awaited, hkey, if_true] at hawaited
                rw [Option.filter_eq_some_iff, decide_eq_true_eq] at hawaited
                exact ⟨hawaited.1, fun _ => hawaited.2⟩
              · simp only [World.goOn, awaited, hkey, if_false] at hawaited
                exact ⟨hawaited, fun heq => absurd heq hkey⟩
            obtain ⟨hkey, hitems, hnot⟩ := h.awaits key e hold.1
            refine ⟨hkey, hitems, fun q hq => ?_⟩
            rcases List.mem_cons.mp hq with rfl | hq
            · intro heq
              cases heq
              exact hold.2 rfl rfl
            · exact hnot q (List.mem_of_mem_erase hq) }

theorem nodup_update {key : Key} {data : Item → Item} (h : (w.items.map Item.key).Nodup)
    (hdata : ∀ i, (data i).key = i.key) : ((w.update key data).items.map Item.key).Nodup := by
  have hsame : (w.update key data).items.map Item.key = w.items.map Item.key := by
    rw [World.update, List.map_map]
    refine List.map_congr_left fun i _ => ?_
    simp only [Function.comp_apply]
    split
    · exact hdata i
    · rfl
  rw [hsame]
  exact h

theorem mem_update {key : Key} {data : Item → Item} {i : Item} (hi : i ∈ (w.update key data).items) :
    ∃ i' ∈ w.items, (i'.key = key ∧ i = data i') ∨ (i'.key ≠ key ∧ i = i') := by
  obtain ⟨i', hi', rfl⟩ := List.mem_map.mp hi
  refine ⟨i', hi', ?_⟩
  split
  case isTrue hkey => exact .inl ⟨hkey, rfl⟩
  case isFalse hkey => exact .inr ⟨hkey, rfl⟩

theorem Kept.mark (h : Kept w) {kind : Kind} {now : Time} {sent : Due} {due : List Due} {owned : List Key}
    (hp : .mark kind now sent due ∈ w.passes)
    (hcareful : w.careful (.goOn (.mark kind now sent due) owned) = true) :
    Kept ({ w with passes := w.passes.erase (.mark kind now sent due) }.goOn owned (.mark kind now sent due)) := by
  have hsame : ∀ i ∈ w.items, i.key = sent.1 → i.dueAt = some sent.2 := by
    intro i hi hkey
    have hall := List.all_eq_true.mp hcareful i hi
    simpa [hkey] using hall
  simp only [World.goOn]
  split
  case isFalse hgone =>
    refine h.erase hp fun due' heq i hi hkey => absurd (List.any_eq_true.mpr ⟨i, hi, ?_⟩) hgone
    cases heq
    exact decide_eq_true hkey
  case isTrue hany =>
    obtain ⟨stored, hstored, hstoredKey⟩ := List.any_eq_true.mp hany
    have hstoredKey : stored.key = sent.1 := of_decide_eq_true hstoredKey
    have hheld := h.nodup_swap hp
    have hbegun := h.begun _ hp
    have hfrom : ∀ q ∈ .send kind now due :: w.passes.erase (.mark kind now sent due), ∀ due' ∈ q.held,
        (∃ q' ∈ w.passes, due' ∈ q'.held) ∧ due'.1 ≠ sent.1 := by
      intro q hq due' hdue'
      rcases List.mem_cons.mp hq with rfl | hold
      · refine ⟨⟨_, hp, List.mem_cons_of_mem _ hdue'⟩, fun heq => ?_⟩
        rw [List.nodup_append] at hheld
        exact (List.nodup_cons.mp hheld.1).1 (heq ▸ List.mem_map_of_mem hdue')
      · exact ⟨⟨q, List.mem_of_mem_erase hold, hdue'⟩, (h.others hp hold List.mem_cons_self hdue').symm⟩
    exact
      { h with
        nodup := nodup_update (w := w) h.nodup fun _ => rfl
        known := fun i hi => by
          obtain ⟨i', hi', ⟨-, rfl⟩ | ⟨-, rfl⟩⟩ := mem_update (w := w) hi
          · exact h.known i' hi'
          · exact h.known i hi'
        heldKnown := fun q hq due' hdue' => by
          obtain ⟨⟨q', hq', hdue''⟩, -⟩ := hfrom q hq due' hdue'
          exact h.heldKnown q' hq' due' hdue''
        begun := fun q hq => by
          rcases List.mem_cons.mp hq with rfl | hold
          · exact hbegun
          · exact h.begun q (List.mem_of_mem_erase hold)
        alone := hheld.sublist ((List.sublist_cons_self _ _).append_right _)
        unmarked := fun q hq due' hdue' i hi hkey => by
          obtain ⟨⟨q', hq', hdue''⟩, hne⟩ := hfrom q hq due' hdue'
          obtain ⟨i', hi', ⟨hmarked, rfl⟩ | ⟨-, rfl⟩⟩ := mem_update (w := w) hi
          · exact absurd (hkey.symm.trans hmarked) hne
          · exact h.unmarked q' hq' due' hdue'' i hi' hkey
        unsent := fun q hq due' hdue' => by
          rcases List.mem_cons.mp hq with rfl | hold
          · exact h.unsent _ hp due' hdue'
          · exact h.unsent q (List.mem_of_mem_erase hold) due' hdue'
        sent := fun due' hmem i hi hkey => by
          obtain ⟨i', hi', ⟨-, rfl⟩ | ⟨hother, rfl⟩⟩ := mem_update (w := w) hi
          · exact .inl rfl
          · refine (h.sent due' hmem i hi' hkey).imp_right fun hor => hor.imp_right fun ⟨q, hq, hsending⟩ => ?_
            refine ⟨q, List.mem_cons_of_mem _ ((List.mem_erase_of_ne ?_).mpr hq), hsending⟩
            rintro rfl
            cases hsending
            exact hother hkey
        awaits := fun key d hawaited => by
          obtain ⟨hkey, hitems, hnot⟩ := h.awaits key d hawaited
          have hne : key ≠ sent.1 := by
            rintro rfl
            have hat := (hitems stored hstored hstoredKey).1.symm.trans (hsame stored hstored hstoredKey)
            cases hat
            exact hnot _ hp rfl
          refine ⟨hkey, fun i hi hi' => ?_, fun q hq => ?_⟩
          · obtain ⟨i', hmem, ⟨hmarked, rfl⟩ | ⟨-, rfl⟩⟩ := mem_update (w := w) hi
            · exact absurd (hi'.symm.trans hmarked) hne
            · exact hitems i hmem hi'
          · rcases List.mem_cons.mp hq with rfl | hold
            · nofun
            · exact hnot q (List.mem_of_mem_erase hold) }

/-! ### Items are edited -/

/-- An edit of what no notification depends on. -/
theorem Kept.edit (h : Kept w) {key : Key} {data : Item → Item}
    (hdata : ∀ i, (data i).key = i.key ∧ (data i).dueAt = i.dueAt ∧ (data i).notifiedAt = i.notifiedAt) :
    Kept (w.update key data) := by
  have hold : ∀ i ∈ (w.update key data).items, ∃ i' ∈ w.items,
      i.key = i'.key ∧ i.dueAt = i'.dueAt ∧ i.notifiedAt = i'.notifiedAt := by
    intro i hi
    obtain ⟨i', hi', ⟨-, rfl⟩ | ⟨-, rfl⟩⟩ := mem_update hi
    · exact ⟨i', hi', hdata i'⟩
    · exact ⟨i, hi', rfl, rfl, rfl⟩
  exact
    { h with
      nodup := nodup_update h.nodup fun i => (hdata i).1
      known := fun i hi => by
        obtain ⟨i', hi', hkey, -⟩ := hold i hi
        exact hkey ▸ h.known i' hi'
      unmarked := fun p hp due hdue i hi hkey => by
        obtain ⟨i', hi', hkey', -, hmark⟩ := hold i hi
        exact hmark ▸ h.unmarked p hp due hdue i' hi' (hkey' ▸ hkey)
      sent := fun due hmem i hi hkey => by
        obtain ⟨i', hi', hkey', hdue, hmark⟩ := hold i hi
        rw [hdue, hmark]
        exact h.sent due hmem i' hi' (hkey' ▸ hkey)
      awaits := fun key' d hawaited => by
        obtain ⟨hkey, hitems, hnot⟩ := h.awaits key' d hawaited
        refine ⟨hkey, fun i hi hi' => ?_, hnot⟩
        obtain ⟨i', hmem, hkey', hdue, hmark⟩ := hold i hi
        rw [hdue, hmark]
        exact hitems i' hmem (hkey' ▸ hi') }

theorem Kept.create (h : Kept w) {key : Key} (hkey : key ∉ w.keys) (dueAt : Option Time) :
    Kept { w with items := w.items ++ [⟨key, dueAt, false, none, none⟩], keys := key :: w.keys } := by
  have hnew : ∀ i ∈ w.items ++ [⟨key, dueAt, false, none, none⟩], i ∈ w.items ∨ i.key = key := fun i hi =>
    (List.mem_append.mp hi).imp_right fun hone => by rw [List.mem_singleton.mp hone]
  exact
    { h with
      nodup := by
        rw [List.map_append, List.map_singleton]
        refine h.nodup.append (List.nodup_singleton _) (List.disjoint_singleton.mpr fun hmem => ?_)
        obtain ⟨i, hi, heq⟩ := List.mem_map.mp hmem
        have heq : i.key = key := heq
        exact hkey (heq ▸ h.known i hi)
      known := fun i hi => by
        rcases hnew i hi with hold | heq
        · exact List.mem_cons_of_mem _ (h.known i hold)
        · exact heq ▸ List.mem_cons_self
      sentKnown := fun due hmem => List.mem_cons_of_mem _ (h.sentKnown due hmem)
      heldKnown := fun p hp due hdue => ⟨List.mem_cons_of_mem _ (h.heldKnown p hp due hdue).1, (h.heldKnown p hp due hdue).2⟩
      unmarked := fun p hp due hdue i hi hi' => by
        rcases hnew i hi with hold | heq
        · exact h.unmarked p hp due hdue i hold hi'
        · exact absurd (heq ▸ hi' ▸ (h.heldKnown p hp due hdue).1) hkey
      sent := fun due hmem i hi hi' => by
        rcases hnew i hi with hold | heq
        · exact h.sent due hmem i hold hi'
        · exact absurd (heq ▸ hi' ▸ h.sentKnown due hmem) hkey
      awaits := fun key' d hawaited => by
        obtain ⟨hknown, hitems, hnot⟩ := h.awaits key' d hawaited
        refine ⟨List.mem_cons_of_mem _ hknown, fun i hi hi' => ?_, hnot⟩
        rcases hnew i hi with hold | heq
        · exact hitems i hold hi'
        · exact absurd (heq ▸ hi' ▸ hknown) hkey }

theorem Kept.delete (h : Kept w) (key : Key) : Kept { w with items := w.items.filter (·.key ≠ key) } :=
  { h with
    nodup := h.nodup.sublist (List.filter_sublist.map _)
    known := fun i hi => h.known i (List.mem_of_mem_filter hi)
    unmarked := fun p hp due hdue i hi => h.unmarked p hp due hdue i (List.mem_of_mem_filter hi)
    sent := fun due hmem i hi => h.sent due hmem i (List.mem_of_mem_filter hi)
    awaits := fun key' d hawaited => by
      obtain ⟨hknown, hitems, hnot⟩ := h.awaits key' d hawaited
      exact ⟨hknown, fun i hi => hitems i (List.mem_of_mem_filter hi), hnot⟩ }

theorem isSending_iff : w.isSending key = true ↔ ∃ p ∈ w.passes, ∃ due, p.sending = some due ∧ due.1 = key := by
  simp only [World.isSending, List.any_eq_true, Option.any_eq_true, decide_eq_true_eq]

theorem setDueEvent_ne_sent {now : Time} {dueAt : Option Time} {due : Due} : w.setDueEvent key now dueAt ≠ .sent due := by
  cases dueAt with
  | none => nofun
  | some d =>
      simp only [World.setDueEvent]
      split <;> nofun

/-- What is awaited after a due time is edited. -/
theorem awaited_setDueEvent {key' : Key} {now : Time} {dueAt : Option Time}
    (h : awaited key' (w.setDueEvent key now dueAt :: w.log) = some d) :
    (key' ≠ key ∧ awaited key' w.log = some d) ∨
      (key' = key ∧ dueAt = some d ∧ now < d ∧ w.isSending key = true) := by
  have hmoved (h : awaited key' (.moved key :: w.log) = some d) : key' ≠ key ∧ awaited key' w.log = some d := by
    simp only [awaited] at h
    exact ⟨fun heq => (Option.ite_none_left_eq_some.mp h).1 heq.symm, (Option.ite_none_left_eq_some.mp h).2⟩
  cases dueAt with
  | none => exact .inl (hmoved h)
  | some e =>
      simp only [World.setDueEvent] at h
      split at h
      case isTrue hfuture =>
        rw [Bool.and_eq_true, decide_eq_true_eq] at hfuture
        simp only [awaited] at h
        by_cases hkey : key' = key
        · rw [if_pos hkey.symm] at h
          cases h
          exact .inr ⟨hkey, rfl, hfuture.1, hfuture.2⟩
        · rw [if_neg (Ne.symm hkey)] at h
          exact .inl ⟨hkey, h⟩
      case isFalse => exact .inl (hmoved h)

theorem Kept.setDue (h : Kept w) {key : Key} {dueAt : Option Time} {now : Time} (hnow : w.clock ≤ now)
    (hcareful : w.careful (.setDue key dueAt now) = true) :
    Kept { w.update key fun i => { i with dueAt := dueAt } with
      log := w.setDueEvent key now dueAt :: w.log, clock := now } := by
  have hsent : ∀ {due}, .sent due ∈ w.setDueEvent key now dueAt :: w.log → .sent due ∈ w.log := fun hmem =>
    (List.mem_cons.mp hmem).resolve_left fun heq => setDueEvent_ne_sent heq.symm
  exact
    { h with
      once := h.once.cons fun e _ => by
        rintro ⟨due, heq, -⟩
        exact setDueEvent_ne_sent heq
      nodup := nodup_update h.nodup fun _ => rfl
      known := fun i hi => by
        obtain ⟨i', hi', ⟨-, rfl⟩ | ⟨-, rfl⟩⟩ := mem_update hi
        · exact h.known i' hi'
        · exact h.known i hi'
      sentKnown := fun due hmem => h.sentKnown due (hsent hmem)
      heldKnown := fun p hp due hdue => (h.heldKnown p hp due hdue).imp_right fun hle => Nat.le_trans hle hnow
      begun := fun p hp => Nat.le_trans (h.begun p hp) hnow
      unmarked := fun p hp due hdue i hi hkey => by
        obtain ⟨i', hi', ⟨-, rfl⟩ | ⟨-, rfl⟩⟩ := mem_update hi
        · exact h.unmarked p hp due hdue i' hi' hkey
        · exact h.unmarked p hp due hdue i hi' hkey
      unsent := fun p hp due hdue hmem => h.unsent p hp due hdue (hsent hmem)
      sent := fun due hmem i hi hkey => by
        obtain ⟨i', hi', ⟨hsame, rfl⟩ | ⟨-, rfl⟩⟩ := mem_update hi
        · by_cases hat : dueAt = some due.2
          · subst hat
            obtain rfl : key = due.1 := hsame.symm.trans hkey
            have hor : (∀ i ∈ w.items, i.key = due.1 → i.notifiedAt.isSome = true) ∨ ∃ p ∈ w.passes, p.sending = some due := by
              have hnot : .sent due ∈ w.log := hsent hmem
              simpa [World.careful, hnot, imp_iff_not_or] using hcareful
            rcases hor with hmarked | hsending
            · exact .inl (hmarked i' hi' hsame)
            · exact .inr (.inr hsending)
          · exact .inr (.inl hat)
        · exact h.sent due (hsent hmem) i hi' hkey
      awaits := fun key' d hawaited => by
        rcases awaited_setDueEvent hawaited with ⟨hne, hold⟩ | ⟨rfl, rfl, hfuture, hsending⟩
        · obtain ⟨hknown, hitems, hnot⟩ := h.awaits key' d hold
          refine ⟨hknown, fun i hi hkey => ?_, hnot⟩
          obtain ⟨i', hi', ⟨hsame, rfl⟩ | ⟨-, rfl⟩⟩ := mem_update hi
          · exact absurd (hkey.symm.trans hsame) hne
          · exact hitems i hi' hkey
        · obtain ⟨p, hp, due, hpsending, rfl⟩ := isSending_iff.mp hsending
          have hheld := Pass.held_of_sending hpsending
          refine ⟨(h.heldKnown p hp due hheld).1, fun i hi hkey => ?_, fun q hq hqsending => ?_⟩
          · obtain ⟨i', hi', ⟨hsame, rfl⟩ | ⟨hother, rfl⟩⟩ := mem_update hi
            · exact ⟨rfl, h.unmarked p hp due hheld i' hi' hsame⟩
            · exact absurd hkey hother
          · exact absurd (Nat.le_trans (h.heldKnown q hq _ (Pass.held_of_sending hqsending)).2 hnow) (Nat.not_le.mpr hfuture) }

theorem Kept.step {m : Move} (h : Kept w) (hcareful : w.careful m = true) (hstep : w.step m = some w') : Kept w' := by
  cases m with
  | checkDueItems now =>
      obtain ⟨hnow, heq⟩ := Option.ite_none_right_eq_some.mp hstep
      cases heq
      exact
        { h with
          heldKnown := fun p hp due hdue => by
            rcases List.mem_cons.mp hp with rfl | hold
            · cases hdue
            · exact (h.heldKnown p hold due hdue).imp_right fun hle => Nat.le_trans hle hnow
          begun := fun p hp => by
            rcases List.mem_cons.mp hp with rfl | hold
            · exact Nat.le_refl _
            · exact Nat.le_trans (h.begun p hold) hnow
          alone := h.alone
          unmarked := fun p hp due hdue => by
            rcases List.mem_cons.mp hp with rfl | hold
            · cases hdue
            · exact h.unmarked p hold due hdue
          unsent := fun p hp due hdue => by
            rcases List.mem_cons.mp hp with rfl | hold
            · cases hdue
            · exact h.unsent p hold due hdue
          sent := fun due hmem i hi hkey => (h.sent due hmem i hi hkey).imp_right fun hor =>
            hor.imp_right fun ⟨q, hq, hsending⟩ => ⟨q, List.mem_cons_of_mem _ hq, hsending⟩
          awaits := fun key d hawaited => by
            obtain ⟨hknown, hitems, hnot⟩ := h.awaits key d hawaited
            exact ⟨hknown, hitems, fun q hq => (List.mem_cons.mp hq).elim (fun heq => heq ▸ nofun) (hnot q)⟩ }
  | goOn pass owned =>
      obtain ⟨hp, heq⟩ := Option.ite_none_right_eq_some.mp hstep
      cases heq
      cases pass with
      | find kind now => exact h.find hp hcareful
      | send kind now due => exact h.send hp
      | mark kind now sent due => exact h.mark hp hcareful
  | giveUp pass =>
      obtain ⟨hp, heq⟩ := Option.ite_none_right_eq_some.mp hstep
      cases heq
      refine h.erase hp fun due hsending i hi hkey => ?_
      cases pass with
      | find | send => cases hsending
      | mark kind now sent rest =>
          cases hsending
          have hall := List.all_eq_true.mp hcareful i hi
          simp only [hkey, ne_eq, not_true_eq_false, decide_false, Bool.false_or, Bool.or_eq_true, decide_eq_true_eq] at hall
          exact hall.symm
  | create key dueAt =>
      obtain ⟨hkey, heq⟩ := Option.ite_none_left_eq_some.mp hstep
      cases heq
      exact h.create hkey dueAt
  | setDue key dueAt now =>
      obtain ⟨hnow, heq⟩ := Option.ite_none_right_eq_some.mp hstep
      cases heq
      exact h.setDue hnow hcareful
  | setDone key done =>
      cases hstep
      exact h.edit fun _ => ⟨rfl, rfl, rfl⟩
  | setArchived key archivedAt =>
      cases hstep
      exact h.edit fun _ => ⟨rfl, rfl, rfl⟩
  | delete key =>
      cases hstep
      exact h.delete key

/-! ### Every due item is notified once -/

/-- The steps of a pass that sends for these items, one after the other. -/
def sendMoves (kind : Kind) (now : Time) (owned : List Key) : List Due → List Move
  | [] => []
  | d :: due => .goOn (.send kind now (d :: due)) owned :: .goOn (.mark kind now d due) owned :: sendMoves kind now owned due

/-- **A pass sends for everything it has read**, where nothing is deleted meanwhile. -/
theorem run_sendMoves {kind : Kind} {now : Time} (owned : List Key) {due : List Due}
    (hp : .send kind now due ∈ w.passes) (hitems : ∀ d ∈ due, ∃ i ∈ w.items, i.key = d.1) :
    ∃ w', run World.step w (sendMoves kind now owned due) = some w' ∧ (∀ e ∈ w.log, e ∈ w'.log) ∧
      ∀ d ∈ due, .sent d ∈ w'.log := by
  induction due generalizing w with
  | nil => exact ⟨w, rfl, fun _ he => he, nofun⟩
  | cons d due ih =>
      obtain ⟨i, hi, hkey⟩ := hitems d List.mem_cons_self
      have hany : w.items.any (·.key = d.1) = true := List.any_eq_true.mpr ⟨i, hi, decide_eq_true hkey⟩
      set w₁ : World :=
        { w with passes := .mark kind now d due :: w.passes.erase (.send kind now (d :: due)), log := .sent d :: w.log }
      set w₂ : World :=
        { w₁.update d.1 fun i => { i with notifiedAt := some now } with
          passes := .send kind now due :: w₁.passes.erase (.mark kind now d due) }
      have hsend : w.step (.goOn (.send kind now (d :: due)) owned) = some w₁ := by
        rw [World.step, if_pos hp]
        rfl
      have hmark : w₁.step (.goOn (.mark kind now d due) owned) = some w₂ := by
        rw [World.step, if_pos List.mem_cons_self, World.goOn, if_pos hany]
        rfl
      have hitems' : ∀ d' ∈ due, ∃ i ∈ w₂.items, i.key = d'.1 := by
        intro d' hd'
        obtain ⟨i', hi', hkey'⟩ := hitems d' (List.mem_cons_of_mem _ hd')
        refine ⟨_, List.mem_map_of_mem hi', ?_⟩
        split <;> exact hkey'
      obtain ⟨w', hrun, hlog, hsent⟩ := ih (w := w₂) List.mem_cons_self hitems'
      refine ⟨w', run_cons_eq_some.mpr ⟨w₁, hsend, run_cons_eq_some.mpr ⟨w₂, hmark, hrun⟩⟩,
        fun e he => hlog e (List.mem_cons_of_mem _ he), fun d' hd' => ?_⟩
      rcases List.mem_cons.mp hd' with rfl | hold
      · exact hlog _ List.mem_cons_self
      · exact hsent d' hold

/-- A pass that is about to read finds an awaited item at its time, and sends for it. -/
theorem Kept.sends_awaited (h : Kept w) (hawaited : awaited key w.log = some d) {i : Item} (hi : i ∈ w.items)
    (hkey : i.key = key) (hdone : i.done = false) (harchived : i.archivedAt = none) {now : Time} {owned : List Key}
    (hnow : d ≤ now) (hp : .find key.kind now ∈ w.passes) (howned : key ∈ owned) :
    ∃ w', run World.step w (.goOn (.find key.kind now) owned ::
        sendMoves key.kind now owned (dueItems w.items key.kind now owned)) = some w' ∧ .sent (key, d) ∈ w'.log := by
  obtain ⟨-, hitems, -⟩ := h.awaits key d hawaited
  obtain ⟨hat, hunmarked⟩ := hitems i hi hkey
  have hdue : (key, d) ∈ dueItems w.items key.kind now owned :=
    mem_dueItems.mpr ⟨i, hi, hkey, hkey ▸ rfl, hkey.symm ▸ howned, hat, hnow, hunmarked, hdone, harchived⟩
  set w₁ : World :=
    { w with passes := .send key.kind now (dueItems w.items key.kind now owned) :: w.passes.erase (.find key.kind now) }
  have hfind : w.step (.goOn (.find key.kind now) owned) = some w₁ := by
    rw [World.step, if_pos hp]
    rfl
  have hpass : .send key.kind now (dueItems w.items key.kind now owned) ∈ w₁.passes := List.mem_cons_self
  obtain ⟨w', hrun, -, hsent⟩ := run_sendMoves owned hpass fun d' hd' => by
    obtain ⟨i', hi', hkey', -⟩ := mem_dueItems.mp hd'
    exact ⟨i', hi', hkey'⟩
  exact ⟨w', run_cons_eq_some.mpr ⟨w₁, hfind, hrun⟩, hsent _ hdue⟩

/-- **An item is sent for at most once a due time, and one that was moved while a pass was sending for it is still sent
for at its new time**, in every careful run. -/
theorem due_items_notified {moves : List Move} (hrun : run World.step .empty moves = some w)
    (hcareful : Meets World.step (fun w m => w.careful m = true) .empty moves) :
    Sound Event.Once w.log ∧
      ∀ key d, awaited key w.log = some d → ∀ i ∈ w.items, i.key = key → i.done = false → i.archivedAt = none →
        ∀ now owned, d ≤ now → .find key.kind now ∈ w.passes → key ∈ owned →
          ∃ w', run World.step w (.goOn (.find key.kind now) owned ::
            sendMoves key.kind now owned (dueItems w.items key.kind now owned)) = some w' ∧ .sent (key, d) ∈ w'.log := by
  have hk : Kept w := run_invariant_of_meets (fun _ _ _ => Kept.step) kept_empty hcareful hrun
  exact ⟨hk.once, fun key d hawaited i hi hkey hdone harchived now owned hnow hp howned =>
    hk.sends_awaited hawaited hi hkey hdone harchived hnow hp howned⟩

def homework : Key := ⟨.todo, "homework"⟩

/-- Homework is due, and a pass is sending for it. -/
def sending : List Move :=
  [.create homework (some 1000), .checkDueItems 2000, .goOn (.find .todo 2000) [homework],
    .goOn (.send .todo 2000 [(homework, 1000)]) [homework]]

/-- The homework is moved to the future, and the pass ends before it marks it. -/
theorem due_items_notified_moved : ∃ w, run World.step .empty
    (sending ++ [.setDue homework (some 5000) 3000, .giveUp (.mark .todo 2000 (homework, 1000) []),
      .checkDueItems 6000]) = some w ∧ awaited homework w.log = some 5000 ∧ Sound Event.Once w.log ∧
    ∃ w', run World.step w (.goOn (.find .todo 6000) [homework] ::
      sendMoves .todo 6000 [homework] (dueItems w.items .todo 6000 [homework])) = some w' ∧
      .sent (homework, 5000) ∈ w'.log := by
  have hgives : (run World.step .empty
    (sending ++ [.setDue homework (some 5000) 3000, .giveUp (.mark .todo 2000 (homework, 1000) []),
      .checkDueItems 6000])).any (fun w => awaited homework w.log = some 5000 && .find .todo 6000 ∈ w.passes &&
        ⟨homework, some 5000, false, none, none⟩ ∈ w.items) = true := by decide +kernel
  obtain ⟨w, hrun, hw⟩ := (Option.any_eq_true _ _).mp hgives
  simp only [Bool.and_eq_true, decide_eq_true_eq] at hw
  obtain ⟨⟨hawaited, hpass⟩, hitem⟩ := hw
  obtain ⟨honce, hsends⟩ := due_items_notified hrun (by decide +kernel)
  exact ⟨w, hrun, hawaited, honce,
    hsends homework 5000 hawaited _ hitem rfl rfl rfl 6000 [homework] (by decide) hpass (List.mem_singleton.mpr rfl)⟩

/-- **A moved item is lost**: the pass marks it, and no later pass reads it.  Two passes at once **send twice**. -/
theorem moved_item_lost :
    (∃ w, run World.step .empty (sending ++ [.setDue homework (some 5000) 3000,
        .goOn (.mark .todo 2000 (homework, 1000) []) [homework], .checkDueItems 6000]) = some w ∧
      awaited homework w.log = some 5000 ∧ ∀ now owned, dueItems w.items .todo now owned = []) ∧
    ∃ w, run World.step .empty ([.create homework (some 1000), .checkDueItems 2000, .checkDueItems 2500,
        .goOn (.find .todo 2000) [homework], .goOn (.find .todo 2500) [homework],
        .goOn (.send .todo 2000 [(homework, 1000)]) [homework],
        .goOn (.send .todo 2500 [(homework, 1000)]) [homework]]) = some w ∧ ¬ Sound Event.Once w.log := by
  refine ⟨?_, ?_⟩
  · have hgives : (run World.step .empty (sending ++ [.setDue homework (some 5000) 3000,
        .goOn (.mark .todo 2000 (homework, 1000) []) [homework], .checkDueItems 6000])).any
        (fun w => awaited homework w.log = some 5000 && w.items.all (·.notifiedAt.isSome)) = true := by decide +kernel
    obtain ⟨w, hrun, hw⟩ := (Option.any_eq_true _ _).mp hgives
    rw [Bool.and_eq_true, decide_eq_true_eq] at hw
    refine ⟨w, hrun, hw.1, fun now owned => List.eq_nil_iff_forall_not_mem.mpr fun due hdue => ?_⟩
    obtain ⟨i, hi, -, -, -, -, -, hunmarked, -⟩ := mem_dueItems.mp hdue
    have hmarked := List.all_eq_true.mp hw.2 i hi
    rw [hunmarked] at hmarked
    cases hmarked
  · have hgives : (run World.step .empty ([.create homework (some 1000), .checkDueItems 2000, .checkDueItems 2500,
        .goOn (.find .todo 2000) [homework], .goOn (.find .todo 2500) [homework],
        .goOn (.send .todo 2000 [(homework, 1000)]) [homework],
        .goOn (.send .todo 2500 [(homework, 1000)]) [homework]])).any
        (fun w => w.log = [.sent (homework, 1000), .sent (homework, 1000)]) = true := by decide +kernel
    obtain ⟨w, hrun, hw⟩ := (Option.any_eq_true _ _).mp hgives
    refine ⟨w, hrun, fun honce => ?_⟩
    rw [of_decide_eq_true hw] at honce
    exact (List.pairwise_cons.mp honce).1 _ List.mem_cons_self ⟨_, rfl, rfl⟩

end Pokyh.School.DueItems

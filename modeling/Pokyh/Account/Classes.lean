import Mathlib.Data.List.Dedup
import Pokyh.Account.SignIns

/-!
# Account — Classes

Which class an account is a member of (`leaveClasses`, `syncUserClass` of `routes/auth.ts`): any number of sign-ins at a time,
each split at its database calls, which are atomic one by one.

* `sign_ins_and_classes`: **a class in use is never deleted**; there is one class for each WebUntis class as long as no
  sign-in creates one that another has created since it looked; and an account is a member of the class that its last
  sign-in has returned, unless sign-ins of it for different classes overlap.
* `two_first_sign_ins`: two accounts whose sign-ins meet make the class twice.

A class has its school since the start-up migration.  What is written and never read here is left out: a class's code and who
made it, a member's name and role.
-/

namespace Pokyh.Account.Classes
open Pokyh.Lib Pokyh.Account.SignIns

structure Class where
  id : String
  name : String
  schoolId : String
  webuntisKlasseId : ℤ
  deriving DecidableEq, Repr

/-- The class of WebUntis that it stands for. -/
def Class.pair (c : Class) : String × ℤ := (c.schoolId, c.webuntisKlasseId)

structure ClassMember where
  classId : String
  stableUid : String
  deriving DecidableEq, Repr

/-- What `syncUserClass` is called with. -/
structure Sync where
  stableUid : String
  klasseId : ℤ
  klasseName : String
  role : AccountRole
  schoolId : String
  /-- The class was just decided from WebUntis. -/
  fromWebUntis : Bool
  deriving DecidableEq, Repr

/-- The class that the account is to be in. -/
def Sync.target (s : Sync) : Option (String × ℤ) :=
  if hasClassIdentity s.role && 0 < s.klasseId then some (s.schoolId, s.klasseId) else none

/-- What comes after leaving classes. -/
inductive After where
  | done
  /-- The class the account already is in, if any, and whether it has a name. -/
  | join (existing : Option (String × Bool))
  deriving DecidableEq, Repr

/-- The next database call of a sign-in. -/
inductive Phase where
  | findMembership
  | findMemberships
  /-- `leaveClasses`: all, or the ones named. -/
  | findLeft (classIds : Option (List String)) (after : After)
  | deleteMembers (left : List String) (after : After)
  | deleteClasses (left : List String) (after : After)
  | updateMember (classId : String) (named : Bool)
  | findClass
  | upsertMember (classId : String) (named : Bool)
  | createClass
  /-- The class could not be created. -/
  | findCreated
  | upsertCreated (classId : String)
  | nameClass (classId : String)
  deriving DecidableEq, Repr

structure Call where
  sync : Sync
  phase : Phase
  deriving DecidableEq, Repr

/-- A sign-in that has come to its end; without a class when it returned none, or failed. -/
structure Ended where
  sync : Sync
  classId : Option String
  deriving DecidableEq, Repr

structure World where
  classes : List Class
  members : List ClassMember
  /-- The classes of the reminders. -/
  reminders : List String
  calls : List Call
  /-- Newest first. -/
  log : List Ended
  /-- Every class id there has been. -/
  ids : List String
  deriving DecidableEq, Repr

/-- One of the rows that a query finds, whichever the database gives first. -/
def pick {α : Type} (rows : List α) (n : ℕ) : Option α := rows[n % rows.length]?

/-- What a step reads of the world around it. -/
structure Reading where
  pick : ℕ
  newId : String
  /-- The class's new code is not taken, and nothing else fails. -/
  created : Bool
  deriving DecidableEq, Repr

def World.next (w : World) (s : Sync) (phase : Phase) : World := { w with calls := ⟨s, phase⟩ :: w.calls }

def World.ended (w : World) (s : Sync) (classId : Option String) : World := { w with log := ⟨s, classId⟩ :: w.log }

def World.memberships (w : World) (stableUid : String) : List String :=
  (w.members.filter (·.stableUid = stableUid)).map (·.classId)

def World.begin (w : World) (s : Sync) : World :=
  if !hasClassIdentity s.role then w.next s (.findLeft none .done)
  else if s.klasseId ≤ 0 then
    if s.fromWebUntis then w.next s (.findLeft none .done) else w.next s .findMembership
  else w.next s .findMemberships

/-- After leaving, or without anything to leave. -/
def World.resume (w : World) (s : Sync) : After → World
  | .done => w.ended s none
  | .join (some (classId, named)) => w.next s (.updateMember classId named)
  | .join none => w.next s .findClass

def named (c : Class) : Bool := trim c.name ≠ ""

/-- A class made while its name was unknown gets it. -/
def World.placed (w : World) (s : Sync) (classId : String) (named : Bool) : World :=
  if !named && trim s.klasseName ≠ "" then w.next s (.nameClass classId) else w.ended s (some classId)

/-- The member row is there afterwards; the class must be. -/
def World.upsertMember (w : World) (classId stableUid : String) : Option World :=
  if w.classes.any (·.id = classId) then
    let row : ClassMember := ⟨classId, stableUid⟩
    some { w with members := if row ∈ w.members then w.members else w.members ++ [row] }
  else none

def World.goOn (w : World) (t : Reading) (s : Sync) : Phase → World
  | .findMembership => w.ended s none
  | .findMemberships =>
      let rows := w.classes.filter fun c => c.id ∈ w.memberships s.stableUid
      let existing := pick (rows.filter fun c => c.pair = (s.schoolId, s.klasseId)) t.pick
      let wrong := (rows.filter fun c => c.pair ≠ (s.schoolId, s.klasseId)).map (·.id)
      let after := After.join (existing.map fun c => (c.id, named c))
      if wrong = [] then w.resume s after else w.next s (.findLeft (some wrong) after)
  | .findLeft classIds after =>
      let left := (w.memberships s.stableUid).filter fun id => classIds.all (id ∈ ·)
      if left = [] then w.resume s after else w.next s (.deleteMembers left after)
  | .deleteMembers left after =>
      { w with members := w.members.filter fun m : ClassMember => !(m.stableUid = s.stableUid && m.classId ∈ left) }.next s
        (.deleteClasses left after)
  | .deleteClasses left after =>
      { w with classes := w.classes.filter fun c : Class =>
          !(c.id ∈ left && w.members.all (·.classId ≠ c.id) && c.id ∉ w.reminders) }.resume s after
  | .updateMember classId named =>
      if (⟨classId, s.stableUid⟩ : ClassMember) ∈ w.members then w.placed s classId named else w.ended s none
  | .findClass =>
      match pick (w.classes.filter fun c => c.pair = (s.schoolId, s.klasseId)) t.pick with
      | some c => w.next s (.upsertMember c.id (named c))
      | none => w.next s .createClass
  | .upsertMember classId named =>
      match w.upsertMember classId s.stableUid with
      | some w => w.placed s classId named
      | none => w.ended s none
  | .createClass =>
      if t.created then
        { w with
          classes := w.classes ++ [(⟨t.newId, s.klasseName, s.schoolId, s.klasseId⟩ : Class)]
          members := w.members ++ [(⟨t.newId, s.stableUid⟩ : ClassMember)]
          ids := t.newId :: w.ids }.ended s (some t.newId)
      else w.next s .findCreated
  | .findCreated =>
      match pick (w.classes.filter fun c => c.pair = (s.schoolId, s.klasseId)) t.pick with
      | some c => w.next s (.upsertCreated c.id)
      | none => w.ended s none
  | .upsertCreated classId =>
      match w.upsertMember classId s.stableUid with
      | some w => w.ended s (some classId)
      | none => w.ended s none
  | .nameClass classId =>
      if w.classes.any (·.id = classId) then
        { w with classes := w.classes.map fun c : Class =>
            if c.id = classId then { c with name := trim s.klasseName } else c }.ended s (some classId)
      else w.ended s none

inductive Move where
  | signIn (s : Sync)
  | goOn (call : Call) (t : Reading)
  /-- A database call fails. -/
  | fail (call : Call)
  | addReminder (classId : String)
  deriving DecidableEq, Repr

def World.step (w : World) : Move → Option World
  | .signIn s => some (w.begin s)
  | .goOn call t =>
      -- new ids are random: none is drawn twice
      if call ∈ w.calls && !(call.phase = .createClass && t.newId ∈ w.ids) then
        some ({ w with calls := w.calls.erase call }.goOn t call.sync call.phase)
      else none
  | .fail call =>
      if call ∈ w.calls then some ({ w with calls := w.calls.erase call }.ended call.sync none) else none
  | .addReminder classId =>
      if w.classes.any (·.id = classId) then some { w with reminders := classId :: w.reminders } else none

/-! ### What should hold -/

/-- One class for each class of WebUntis. -/
def World.Unique (w : World) : Prop := w.classes.Pairwise fun a b => a.pair = b.pair → a.webuntisKlasseId ≤ 0

/-- Where the database starts: its keys and references hold, and there is one class for each class of WebUntis. -/
structure World.Starts (w : World) : Prop where
  calls : w.calls = []
  log : w.log = []
  ids : ∀ c ∈ w.classes, c.id ∈ w.ids
  keys : (w.classes.map (·.id)).Nodup
  members : ∀ m ∈ w.members, ∃ c ∈ w.classes, c.id = m.classId
  unique : w.Unique

/-- A class that a step deletes has no member and no reminder. -/
def World.DeletesUnused (w w' : World) : Prop :=
  ∀ c ∈ w.classes, c.id ∉ w'.classes.map (·.id) → (∀ m ∈ w.members, m.classId ≠ c.id) ∧ c.id ∉ w.reminders

/-- The account is a member of the class that its last sign-in has returned for it. -/
def World.Placed (w : World) (stableUid : String) : Prop :=
  ∀ e, w.log.find? (·.sync.stableUid = stableUid) = some e → ∀ pair, e.sync.target = some pair →
    ∀ classId, e.classId = some classId →
      ⟨classId, stableUid⟩ ∈ w.members ∧ ∃ c ∈ w.classes, c.id = classId ∧ c.pair = pair

/-- No class is created where there is one by now. -/
def World.looked (w : World) : Move → Bool
  | .goOn ⟨s, .createClass⟩ t => !t.created || w.classes.all fun c => c.pair ≠ (s.schoolId, s.klasseId)
  | _ => true

/-- A sign-in of the account does not begin while one of it for another class, or for none, is running. -/
def World.inTurn (w : World) (stableUid : String) : Move → Bool
  | .signIn s => s.stableUid ≠ stableUid || w.calls.all fun c => c.sync.stableUid ≠ stableUid || c.sync.target = s.target
  | _ => true

/-! ### What the database keeps -/

/-- Keys and references. -/
structure World.Sound (w : World) : Prop where
  ids : ∀ c ∈ w.classes, c.id ∈ w.ids
  keys : (w.classes.map (·.id)).Nodup
  members : ∀ m ∈ w.members, ∃ c ∈ w.classes, c.id = m.classId

/-- Later on a class is still for the same class of WebUntis, or is new. -/
structure World.Evolves (w w' : World) : Prop where
  ids : ∀ id ∈ w.ids, id ∈ w'.ids
  classes : ∀ c' ∈ w'.classes, (∃ c ∈ w.classes, c.id = c'.id ∧ c.pair = c'.pair) ∨ c'.id ∉ w.ids

variable {w w' db : World} {s : Sync} {phase : Phase} {t : Reading} {classId stableUid : String} {pair : String × ℤ}

theorem World.Evolves.of_eq (hids : w'.ids = w.ids) (hclasses : w'.classes = w.classes) : w.Evolves w' := by
  refine ⟨fun _ hid => hids ▸ hid, fun c hc => .inl ⟨c, hclasses ▸ hc, rfl, rfl⟩⟩

/-- If there is a class of that id, it is for that class of WebUntis. -/
def World.Known (w : World) (classId : String) (pair : String × ℤ) : Prop :=
  classId ∈ w.ids ∧ ∀ c ∈ w.classes, c.id = classId → c.pair = pair

/-- If there is a class of that id, it is not for that class of WebUntis. -/
def World.Foreign (w : World) (classId : String) (pair : String × ℤ) : Prop :=
  classId ∈ w.ids ∧ ∀ c ∈ w.classes, c.id = classId → c.pair ≠ pair

theorem World.Known.mono (h : w.Known classId pair) (he : w.Evolves w') : w'.Known classId pair := by
  refine ⟨he.ids _ h.1, fun c' hc' hid => ?_⟩
  rcases he.classes c' hc' with ⟨c, hc, hcid, hpair⟩ | hnew
  · rw [← hpair]
    exact h.2 c hc (hcid.trans hid)
  · rw [hid] at hnew
    exact absurd h.1 hnew

theorem World.Foreign.mono (h : w.Foreign classId pair) (he : w.Evolves w') : w'.Foreign classId pair := by
  refine ⟨he.ids _ h.1, fun c' hc' hid => ?_⟩
  rcases he.classes c' hc' with ⟨c, hc, hcid, hpair⟩ | hnew
  · rw [← hpair]
    exact h.2 c hc (hcid.trans hid)
  · rw [hid] at hnew
    exact absurd h.1 hnew

theorem pick_mem {α : Type} {rows : List α} {n : ℕ} {a : α} (h : pick rows n = some a) : a ∈ rows :=
  List.mem_of_getElem? h

theorem pick_eq_none {α : Type} {rows : List α} {n : ℕ} (h : pick rows n = none) : rows = [] := by
  cases rows with
  | nil => rfl
  | cons a rows =>
      rw [pick, List.getElem?_eq_none_iff] at h
      exact absurd (Nat.mod_lt n (Nat.succ_pos rows.length)) (Nat.not_lt.mpr h)

theorem World.Sound.known (h : w.Sound) {c : Class} (hc : c ∈ w.classes) : w.Known c.id c.pair := by
  refine ⟨h.ids c hc, fun c' hc' hid => ?_⟩
  rw [List.inj_on_of_nodup_map h.keys hc' hc hid]

theorem World.Sound.foreign (h : w.Sound) {c : Class} (hc : c ∈ w.classes) (hpair : c.pair ≠ pair) : w.Foreign c.id pair := by
  refine ⟨h.ids c hc, fun c' hc' hid => ?_⟩
  rw [List.inj_on_of_nodup_map h.keys hc' hc hid]
  exact hpair

/-! ### What a sign-in knows -/

/-- What is left is nothing of the account's own class. -/
def World.LeftFits (w : World) (s : Sync) (left : List String) : Prop :=
  ∀ pair, s.target = some pair → ∀ id ∈ left, w.Foreign id pair

def World.AfterFits (w : World) (s : Sync) : After → Prop
  | .done => s.target = none
  | .join existing => s.target = some (s.schoolId, s.klasseId) ∧
      ∀ row, existing = some row → w.Known row.1 (s.schoolId, s.klasseId)

/-- What is so of a sign-in before each of its database calls. -/
def World.Fits (w : World) (s : Sync) : Phase → Prop
  | .findMembership => s.target = none
  | .findMemberships | .findClass | .createClass | .findCreated => s.target = some (s.schoolId, s.klasseId)
  | .findLeft none after => s.target = none ∧ w.AfterFits s after
  | .findLeft (some classIds) after => w.LeftFits s classIds ∧ w.AfterFits s after
  | .deleteMembers left after => w.LeftFits s left ∧ w.AfterFits s after
  | .deleteClasses _ after => w.AfterFits s after
  | .updateMember classId _ | .upsertMember classId _ | .upsertCreated classId | .nameClass classId =>
      s.target = some (s.schoolId, s.klasseId) ∧ w.Known classId (s.schoolId, s.klasseId)

theorem World.AfterFits.mono {after : After} (h : w.AfterFits s after) (he : w.Evolves w') : w'.AfterFits s after := by
  cases after with
  | done => exact h
  | join existing => exact ⟨h.1, fun row hrow => (h.2 row hrow).mono he⟩

theorem World.Fits.mono (h : w.Fits s phase) (he : w.Evolves w') : w'.Fits s phase := by
  cases phase with
  | findMembership | findMemberships | findClass | createClass | findCreated => exact h
  | findLeft classIds after =>
      cases classIds with
      | none => exact ⟨h.1, h.2.mono he⟩
      | some classIds => exact ⟨fun pair ht id hid => (h.1 pair ht id hid).mono he, h.2.mono he⟩
  | deleteMembers left after => exact ⟨fun pair ht id hid => (h.1 pair ht id hid).mono he, h.2.mono he⟩
  | deleteClasses left after => exact World.AfterFits.mono h he
  | updateMember | upsertMember | upsertCreated | nameClass => exact ⟨h.1, h.2.mono he⟩

/-- Where a sign-in is after one of its database calls: before the next, which it is ready for, or at its end. -/
def World.Leads (db : World) (s : Sync) (phase : Phase) (w' : World) : Prop :=
  (∃ phase', w' = db.next s phase' ∧ db.Fits s phase' ∧
      ∀ classId, phase' = .nameClass classId → ⟨classId, s.stableUid⟩ ∈ db.members) ∨
    ∃ result, w' = db.ended s result ∧ ∀ classId, result = some classId →
      (⟨classId, s.stableUid⟩ ∈ db.members ∨ phase = .nameClass classId) ∧
        s.target = some (s.schoolId, s.klasseId) ∧ db.Known classId (s.schoolId, s.klasseId)

/-- What one database call does: which rows go, and why. -/
structure World.Turns (w db : World) (s : Sync) (phase : Phase) : Prop where
  calls : db.calls = w.calls
  log : db.log = w.log
  sound : db.Sound
  evolves : w.Evolves db
  members : ∀ m ∈ w.members, m ∈ db.members ∨
    ∃ left after, phase = .deleteMembers left after ∧ m.stableUid = s.stableUid ∧ m.classId ∈ left
  deletes : w.DeletesUnused db

theorem World.Turns.refl (h : w.Sound) (s : Sync) (phase : Phase) : w.Turns w s phase :=
  ⟨rfl, rfl, h, .of_eq rfl rfl, fun _ hm => .inl hm, fun _ hc hgone => absurd (List.mem_map_of_mem hc) hgone⟩

theorem World.leads_next {phase' : Phase} (hfits : db.Fits s phase') (hname : ∀ id, phase' ≠ .nameClass id) :
    db.Leads s phase (db.next s phase') :=
  .inl ⟨phase', rfl, hfits, fun id heq => absurd heq (hname id)⟩

theorem World.leads_none (db : World) (s : Sync) (phase : Phase) : db.Leads s phase (db.ended s none) :=
  .inr ⟨none, rfl, nofun⟩

theorem World.leads_resume {after : After} (h : db.AfterFits s after) : db.Leads s phase (db.resume s after) := by
  cases after with
  | done => exact World.leads_none db s phase
  | join existing =>
      cases existing with
      | none => exact World.leads_next h.1 nofun
      | some row => exact World.leads_next ⟨h.1, h.2 row rfl⟩ nofun

theorem World.leads_placed (ht : s.target = some (s.schoolId, s.klasseId)) (hknown : db.Known classId (s.schoolId, s.klasseId))
    (hmem : ⟨classId, s.stableUid⟩ ∈ db.members) (named : Bool) : db.Leads s phase (db.placed s classId named) := by
  unfold World.placed
  split
  · refine .inl ⟨_, rfl, ⟨ht, hknown⟩, fun id heq => ?_⟩
    cases heq
    exact hmem
  · refine .inr ⟨_, rfl, fun id heq => ?_⟩
    cases heq
    exact ⟨.inl hmem, ht, hknown⟩

/-! ### One database call -/

theorem World.turns_deleteMembers (h : w.Sound) (left : List String) (after : After) :
    w.Turns { w with members := w.members.filter fun m => !(m.stableUid = s.stableUid && m.classId ∈ left) } s
      (.deleteMembers left after) := by
  refine ⟨rfl, rfl, ⟨h.ids, h.keys, fun m hm => h.members m (List.mem_filter.mp hm).1⟩,
    .of_eq rfl rfl, fun m hm => ?_,
    fun c hc hgone => absurd (List.mem_map_of_mem hc) hgone⟩
  by_cases hgone : m.stableUid = s.stableUid ∧ m.classId ∈ left
  · exact .inr ⟨left, after, rfl, hgone.1, hgone.2⟩
  · refine .inl (List.mem_filter.mpr ⟨hm, ?_⟩)
    simpa [imp_iff_not_or] using hgone

theorem World.turns_deleteClasses (h : w.Sound) (left : List String) (phase : Phase) :
    w.Turns { w with classes := w.classes.filter fun c : Class =>
      !(c.id ∈ left && w.members.all (·.classId ≠ c.id) && c.id ∉ w.reminders) } s phase := by
  refine ⟨rfl, rfl, ?_, ?_, fun m hm => .inl hm, fun c hc hgone => ?_⟩
  · refine ⟨fun c hc => h.ids c (List.mem_filter.mp hc).1, (List.Sublist.map _ List.filter_sublist).nodup h.keys,
      fun m hm => ?_⟩
    obtain ⟨c, hc, hid⟩ := h.members m hm
    refine ⟨c, List.mem_filter.mpr ⟨hc, ?_⟩, hid⟩
    -- a class with a member stays
    have hused : w.members.all (fun m => decide (m.classId ≠ c.id)) = false :=
      List.all_eq_false.mpr ⟨m, hm, by simp [hid]⟩
    simp only [hused, Bool.and_false, Bool.false_and, Bool.not_false]
  · exact ⟨fun _ hid => hid, fun c hc => .inl ⟨c, (List.mem_filter.mp hc).1, rfl, rfl⟩⟩
  · have hdeleted : (decide (c.id ∈ left) && w.members.all (fun m => decide (m.classId ≠ c.id)) &&
        decide (c.id ∉ w.reminders)) = true := by
      by_contra hstays
      rw [Bool.not_eq_true] at hstays
      refine hgone (List.mem_map_of_mem (List.mem_filter.mpr ⟨hc, ?_⟩))
      rw [hstays]
      rfl
    simp only [Bool.and_eq_true, List.all_eq_true, decide_eq_true_eq] at hdeleted
    exact ⟨hdeleted.1.2, hdeleted.2⟩

/-- The account becomes a member, of a class that is there. -/
theorem World.turns_upsertMember (h : w.Sound) (phase : Phase) (hdb : w.upsertMember classId s.stableUid = some db) :
    w.Turns db s phase ∧ ⟨classId, s.stableUid⟩ ∈ db.members := by
  simp only [World.upsertMember, Option.ite_none_right_eq_some, Option.some.injEq] at hdb
  obtain ⟨hclass, rfl⟩ := hdb
  obtain ⟨c, hc, hid⟩ := List.any_eq_true.mp hclass
  have hid' : c.id = classId := by simpa using hid
  refine ⟨⟨rfl, rfl, ⟨h.ids, h.keys, fun m hm => ?_⟩, .of_eq rfl rfl,
    fun m hm => .inl ?_, fun c hc hgone => absurd (List.mem_map_of_mem hc) hgone⟩, ?_⟩
  · dsimp only at hm
    split at hm
    · exact h.members m hm
    · rcases List.mem_append.mp hm with hm | hm
      · exact h.members m hm
      · rw [List.mem_singleton.mp hm]
        exact ⟨c, hc, hid'⟩
  · dsimp only
    split
    · exact hm
    · exact List.mem_append_left _ hm
  · dsimp only
    split
    · assumption
    · simp

theorem World.turns_createClass (h : w.Sound) (hnew : t.newId ∉ w.ids) (phase : Phase) :
    w.Turns { w with
      classes := w.classes ++ [(⟨t.newId, s.klasseName, s.schoolId, s.klasseId⟩ : Class)]
      members := w.members ++ [(⟨t.newId, s.stableUid⟩ : ClassMember)]
      ids := t.newId :: w.ids } s phase where
  calls := rfl
  log := rfl
  sound := by
    refine ⟨fun c hc => ?_, ?_, fun m hm => ?_⟩
    · rcases List.mem_append.mp hc with hc | hc
      · exact List.mem_cons_of_mem _ (h.ids c hc)
      · rw [List.mem_singleton.mp hc]
        exact List.mem_cons_self
    · rw [List.map_append, List.map_singleton]
      refine h.keys.append (List.nodup_singleton _) fun id hid hid' => ?_
      obtain ⟨c, hc, heq⟩ := List.mem_map.mp hid
      have hid : c.id = t.newId := heq.trans (List.mem_singleton.mp hid')
      rw [← hid] at hnew
      exact hnew (h.ids c hc)
    · rcases List.mem_append.mp hm with hm | hm
      · obtain ⟨c, hc, hid⟩ := h.members m hm
        exact ⟨c, List.mem_append_left _ hc, hid⟩
      · rw [List.mem_singleton.mp hm]
        exact ⟨_, List.mem_append_right _ (List.mem_singleton_self _), rfl⟩
  evolves := by
    refine ⟨fun id hid => List.mem_cons_of_mem _ hid, fun c hc => ?_⟩
    rcases List.mem_append.mp hc with hc | hc
    · exact .inl ⟨c, hc, rfl, rfl⟩
    · rw [List.mem_singleton.mp hc]
      exact .inr hnew
  members := fun m hm => .inl (List.mem_append_left _ hm)
  deletes := fun c hc hgone => absurd (List.mem_map_of_mem (List.mem_append_left _ hc)) hgone

theorem World.turns_nameClass (h : w.Sound) (classId name : String) (phase : Phase) :
    w.Turns { w with classes := w.classes.map fun c : Class => if c.id = classId then { c with name := name } else c }
      s phase := by
  have hid : ∀ c : Class, (if c.id = classId then { c with name := name } else c).id = c.id := fun c => by split <;> rfl
  have hpair : ∀ c : Class, (if c.id = classId then { c with name := name } else c).pair = c.pair := fun c => by
    split <;> rfl
  have hids : (w.classes.map fun c : Class => if c.id = classId then { c with name := name } else c).map (·.id) =
      w.classes.map (·.id) := by
    rw [List.map_map]
    exact List.map_congr_left fun c _ => hid c
  refine ⟨rfl, rfl, ⟨fun c hc => ?_, ?_, fun m hm => ?_⟩, ⟨fun _ hid => hid, fun c hc => ?_⟩, fun m hm => .inl hm,
    fun c hc hgone => ?_⟩
  · obtain ⟨c₀, hc₀, rfl⟩ := List.mem_map.mp hc
    rw [hid]
    exact h.ids c₀ hc₀
  · rw [hids]
    exact h.keys
  · obtain ⟨c, hc, hm⟩ := h.members m hm
    exact ⟨_, List.mem_map_of_mem hc, (hid c).trans hm⟩
  · obtain ⟨c₀, hc₀, rfl⟩ := List.mem_map.mp hc
    exact .inl ⟨c₀, hc₀, (hid c₀).symm, (hpair c₀).symm⟩
  · dsimp only at hgone
    rw [hids] at hgone
    exact absurd (List.mem_map_of_mem hc) hgone

/-- **What a database call of a sign-in does, and where it leads.** -/
theorem World.Sound.goOn (h : w.Sound) (hfits : w.Fits s phase) (hnew : phase = .createClass → t.newId ∉ w.ids) :
    ∃ db, w.Turns db s phase ∧ db.Leads s phase (w.goOn t s phase) := by
  have hfound : ∀ c ∈ w.classes.filter fun c => c.pair = (s.schoolId, s.klasseId), w.Known c.id (s.schoolId, s.klasseId) := by
    intro c hc
    obtain ⟨hc, hpair⟩ := List.mem_filter.mp hc
    have hpair' : c.pair = (s.schoolId, s.klasseId) := by simpa using hpair
    exact hpair' ▸ h.known hc
  cases phase with
  | findMembership => exact ⟨w, .refl h _ _, World.leads_none w s _⟩
  | findMemberships =>
      refine ⟨w, .refl h _ _, ?_⟩
      have hafter : w.AfterFits s (.join ((pick ((w.classes.filter fun c => c.id ∈ w.memberships s.stableUid).filter
          fun c => c.pair = (s.schoolId, s.klasseId)) t.pick).map fun c => (c.id, named c))) := by
        refine ⟨hfits, fun row hrow => ?_⟩
        obtain ⟨c, hc, rfl⟩ := Option.map_eq_some_iff.mp hrow
        obtain ⟨hrow, hpair⟩ := List.mem_filter.mp (pick_mem hc)
        exact hfound c (List.mem_filter.mpr ⟨(List.mem_filter.mp hrow).1, hpair⟩)
      simp only [World.goOn]
      split
      · exact World.leads_resume hafter
      · refine World.leads_next ⟨fun pair ht id hid => ?_, hafter⟩ nofun
        obtain ⟨c, hc, rfl⟩ := List.mem_map.mp hid
        obtain ⟨hc, hpair⟩ := List.mem_filter.mp hc
        have htarget : s.target = some (s.schoolId, s.klasseId) := hfits
        rw [htarget] at ht
        cases ht
        exact h.foreign (List.mem_filter.mp hc).1 (by simpa using hpair)
  | findLeft classIds after =>
      refine ⟨w, .refl h _ _, ?_⟩
      have hafter : w.AfterFits s after := by
        cases classIds with
        | none => exact hfits.2
        | some classIds => exact hfits.2
      simp only [World.goOn]
      split
      · exact World.leads_resume hafter
      · refine World.leads_next ⟨fun pair ht id hid => ?_, hafter⟩ nofun
        cases classIds with
        | none =>
            rw [hfits.1] at ht
            cases ht
        | some classIds => exact hfits.1 pair ht id (by simpa using (List.mem_filter.mp hid).2)
  | deleteMembers left after =>
      have hturns := World.turns_deleteMembers (s := s) h left after
      exact ⟨_, hturns, World.leads_next (World.AfterFits.mono hfits.2 hturns.evolves) nofun⟩
  | deleteClasses left after =>
      have hturns := World.turns_deleteClasses (s := s) h left (.deleteClasses left after)
      exact ⟨_, hturns, World.leads_resume (World.AfterFits.mono hfits hturns.evolves)⟩
  | updateMember classId named =>
      refine ⟨w, .refl h _ _, ?_⟩
      simp only [World.goOn]
      split
      · exact World.leads_placed hfits.1 hfits.2 (by assumption) named
      · exact World.leads_none w s _
  | findClass =>
      refine ⟨w, .refl h _ _, ?_⟩
      simp only [World.goOn]
      split
      · rename_i c hc
        exact World.leads_next ⟨hfits, hfound c (pick_mem hc)⟩ nofun
      · exact World.leads_next hfits nofun
  | upsertMember classId named =>
      simp only [World.goOn]
      split
      · rename_i db hdb
        obtain ⟨hturns, hmem⟩ := World.turns_upsertMember h (.upsertMember classId named) hdb
        exact ⟨db, hturns, World.leads_placed hfits.1 (hfits.2.mono hturns.evolves) hmem named⟩
      · exact ⟨w, .refl h _ _, World.leads_none w s _⟩
  | createClass =>
      simp only [World.goOn]
      split
      · have hturns := World.turns_createClass (s := s) (t := t) h (hnew rfl) .createClass
        refine ⟨_, hturns, .inr ⟨_, rfl, fun id heq => ?_⟩⟩
        cases heq
        exact ⟨.inl (by simp), hfits, hturns.sound.known (List.mem_append_right _ (List.mem_singleton_self _))⟩
      · exact ⟨w, .refl h _ _, World.leads_next hfits nofun⟩
  | findCreated =>
      refine ⟨w, .refl h _ _, ?_⟩
      simp only [World.goOn]
      split
      · rename_i c hc
        exact World.leads_next ⟨hfits, hfound c (pick_mem hc)⟩ nofun
      · exact World.leads_none w s _
  | upsertCreated classId =>
      simp only [World.goOn]
      split
      · rename_i db hdb
        obtain ⟨hturns, hmem⟩ := World.turns_upsertMember h (.upsertCreated classId) hdb
        refine ⟨db, hturns, .inr ⟨_, rfl, fun id heq => ?_⟩⟩
        cases heq
        exact ⟨.inl hmem, hfits.1, hfits.2.mono hturns.evolves⟩
      · exact ⟨w, .refl h _ _, World.leads_none w s _⟩
  | nameClass classId =>
      simp only [World.goOn]
      split
      · have hturns := World.turns_nameClass (s := s) h classId (trim s.klasseName) (.nameClass classId)
        refine ⟨_, hturns, .inr ⟨_, rfl, fun id heq => ?_⟩⟩
        cases heq
        exact ⟨.inr rfl, hfits.1, hfits.2.mono hturns.evolves⟩
      · exact ⟨w, .refl h _ _, World.leads_none w s _⟩

/-! ### What holds of every run -/

/-- Keys and references hold, and each sign-in is ready for its next database call. -/
structure World.Holds (w : World) : Prop where
  sound : w.Sound
  fits : ∀ call ∈ w.calls, w.Fits call.sync call.phase

/-- What one step does: a sign-in, perhaps a new one, makes a database call, and all others wait. -/
structure World.Acts (w : World) (s : Sync) (phase : Phase) (rest : List Call) (db w' : World) : Prop where
  waiting : ∀ call ∈ rest, call ∈ w.calls
  turns : { w with calls := rest }.Turns db s phase
  leads : db.Leads s phase w'

theorem World.Acts.holds {rest : List Call} (h : w.Acts s phase rest db w') (hw : w.Holds) : w'.Holds := by
  have hold : ∀ call ∈ db.calls, db.Fits call.sync call.phase := by
    intro call hcall
    rw [h.turns.calls] at hcall
    exact World.Fits.mono (hw.fits call (h.waiting call hcall)) ⟨h.turns.evolves.ids, h.turns.evolves.classes⟩
  rcases h.leads with ⟨phase', rfl, hfits, -⟩ | ⟨result, rfl, -⟩
  · refine ⟨⟨h.turns.sound.ids, h.turns.sound.keys, h.turns.sound.members⟩, fun call hcall => ?_⟩
    rcases List.mem_cons.mp hcall with rfl | hcall
    · exact hfits.mono (.of_eq rfl rfl)
    · exact (hold call hcall).mono (.of_eq rfl rfl)
  · refine ⟨⟨h.turns.sound.ids, h.turns.sound.keys, h.turns.sound.members⟩, fun call hcall => ?_⟩
    exact (hold call hcall).mono (.of_eq rfl rfl)

theorem World.leads_begin (db : World) (s : Sync) : db.Leads s .findMembership (db.begin s) := by
  have hleave : s.target = none → db.Leads s .findMembership (db.next s (.findLeft none .done)) := fun htarget =>
    World.leads_next ⟨htarget, htarget⟩ nofun
  unfold World.begin
  split
  · rename_i hrole
    exact hleave (by simp_all [Sync.target])
  · rename_i hrole
    split
    · rename_i hid
      have htarget : s.target = none := by simp [Sync.target, Int.not_lt.mpr hid]
      split
      · exact hleave htarget
      · exact World.leads_next htarget nofun
    · rename_i hid
      have htarget : s.target = some (s.schoolId, s.klasseId) := by simp_all [Sync.target]
      exact World.leads_next htarget nofun

/-- **The moves one by one.** -/
theorem World.step_cases {m : Move} (hw : w.Holds) (h : w.step m = some w') :
    (∃ s, m = .signIn s ∧ w.Acts s .findMembership w.calls w w') ∨
      (∃ call t db, m = .goOn call t ∧ call ∈ w.calls ∧ w.Acts call.sync call.phase (w.calls.erase call) db w') ∨
      (∃ call db, m = .fail call ∧ call ∈ w.calls ∧ w.Acts call.sync .findMembership (w.calls.erase call) db w') ∨
      ∃ classId, m = .addReminder classId ∧ w' = { w with reminders := classId :: w.reminders } := by
  cases m with
  | signIn s =>
      refine .inl ⟨s, rfl, fun _ h => h, .refl hw.sound _ _, ?_⟩
      simp only [World.step, Option.some.injEq] at h
      exact h ▸ World.leads_begin w s
  | goOn call t =>
      simp only [World.step, Option.ite_none_right_eq_some, Option.some.injEq, Bool.and_eq_true, Bool.not_eq_true',
        Bool.and_eq_false_iff, decide_eq_true_eq, decide_eq_false_iff_not] at h
      obtain ⟨⟨hcall, hnew⟩, rfl⟩ := h
      have hsound : { w with calls := w.calls.erase call }.Sound := ⟨hw.sound.ids, hw.sound.keys, hw.sound.members⟩
      have hfits := (hw.fits call hcall).mono (.of_eq rfl rfl)
      obtain ⟨db, hturns, hleads⟩ := hsound.goOn (t := t) hfits fun hphase => hnew.resolve_left (not_not.mpr hphase)
      exact .inr (.inl ⟨call, t, db, rfl, hcall, fun _ h => List.mem_of_mem_erase h, hturns, hleads⟩)
  | fail call =>
      simp only [World.step, Option.ite_none_right_eq_some, Option.some.injEq] at h
      obtain ⟨hcall, rfl⟩ := h
      have hsound : { w with calls := w.calls.erase call }.Sound := ⟨hw.sound.ids, hw.sound.keys, hw.sound.members⟩
      exact .inr (.inr (.inl ⟨call, _, rfl, hcall, fun _ h => List.mem_of_mem_erase h, .refl hsound _ _,
        World.leads_none _ _ _⟩))
  | addReminder classId =>
      simp only [World.step, Option.ite_none_right_eq_some, Option.some.injEq] at h
      exact .inr (.inr (.inr ⟨classId, rfl, h.2.symm⟩))

theorem World.Holds.step {m : Move} (hw : w.Holds) (h : w.step m = some w') : w'.Holds := by
  rcases World.step_cases hw h with ⟨s, -, hacts⟩ | ⟨call, t, db, -, -, hacts⟩ | ⟨call, db, -, -, hacts⟩ | ⟨id, -, rfl⟩
  · exact hacts.holds hw
  · exact hacts.holds hw
  · exact hacts.holds hw
  · exact ⟨⟨hw.sound.ids, hw.sound.keys, hw.sound.members⟩, fun call hcall => (hw.fits call hcall).mono (.of_eq rfl rfl)⟩

theorem World.Starts.holds (h : w.Starts) : w.Holds := by
  refine ⟨⟨h.ids, h.keys, h.members⟩, fun call hcall => ?_⟩
  rw [h.calls] at hcall
  cases hcall

/-! ### A class in use -/

theorem World.Leads.classes (h : db.Leads s phase w') : w'.classes = db.classes := by
  rcases h with ⟨phase', rfl, -⟩ | ⟨result, rfl, -⟩ <;> rfl

theorem World.Acts.deletes {rest : List Call} (h : w.Acts s phase rest db w') : w.DeletesUnused w' := by
  intro c hc hgone
  rw [h.leads.classes] at hgone
  exact h.turns.deletes c hc hgone

/-- **No step deletes a class that is in use.** -/
theorem World.Holds.deletes {m : Move} (hw : w.Holds) (h : w.step m = some w') : w.DeletesUnused w' := by
  rcases World.step_cases hw h with ⟨s, -, hacts⟩ | ⟨call, t, db, -, -, hacts⟩ | ⟨call, db, -, -, hacts⟩ | ⟨id, -, rfl⟩
  · exact hacts.deletes
  · exact hacts.deletes
  · exact hacts.deletes
  · exact fun c hc hgone => absurd (List.mem_map_of_mem hc) hgone

/-! ### The class an account is in -/

/-- The sign-ins of an account that are running are for one class; one that is giving it a name has the account in it; and
what the last one returned holds, as long as the running ones are for the same class. -/
structure World.Settled (w : World) (stableUid : String) : Prop where
  same : ∀ c ∈ w.calls, ∀ c' ∈ w.calls, c.sync.stableUid = stableUid → c'.sync.stableUid = stableUid →
    c.sync.target = c'.sync.target
  naming : ∀ c ∈ w.calls, c.sync.stableUid = stableUid → ∀ classId, c.phase = .nameClass classId →
    ⟨classId, stableUid⟩ ∈ w.members
  placed : ∀ e, w.log.find? (·.sync.stableUid = stableUid) = some e →
    (∀ c ∈ w.calls, c.sync.stableUid = stableUid → c.sync.target = e.sync.target) →
      ∀ pair, e.sync.target = some pair → ∀ classId, e.classId = some classId →
        ⟨classId, stableUid⟩ ∈ w.members ∧ w.Known classId pair

/-- A sign-in removes no one from the class it is for. -/
theorem World.Acts.member_kept {rest : List Call} (h : w.Acts s phase rest db w') (hw : w.Holds)
    (hfits : ∀ left after, phase = .deleteMembers left after → w.LeftFits s left) {m : ClassMember} (hm : m ∈ w.members)
    (hknown : w.Known m.classId pair) (htarget : s.stableUid = m.stableUid → s.target = some pair) : m ∈ db.members := by
  rcases h.turns.members m hm with hkept | ⟨left, after, rfl, huid, hleft⟩
  · exact hkept
  · obtain ⟨c, hc, hid⟩ := hw.sound.members m hm
    exact absurd (hknown.2 c hc hid) ((hfits left after rfl pair (htarget huid.symm) _ hleft).2 c hc hid)

/-- What a step keeps of an account: the running sign-ins of it are for one class, the one that makes a call among them. -/
theorem World.Acts.settled {rest : List Call} (h : w.Acts s phase rest db w') (hw : w.Holds)
    (hfits : ∀ left after, phase = .deleteMembers left after → w.LeftFits s left) (hset : w.Settled stableUid)
    (hsame : s.stableUid = stableUid → ∀ c ∈ w.calls, c.sync.stableUid = stableUid → c.sync.target = s.target)
    (hrest : ∀ c ∈ w.calls, c ∈ rest ∨ c.sync = s) (hnaming : ∀ classId, phase = .nameClass classId → ⟨s, phase⟩ ∈ w.calls) :
    w'.Settled stableUid := by
  have hevolves : w.Evolves db := ⟨h.turns.evolves.ids, h.turns.evolves.classes⟩
  have hmem : ∀ c ∈ db.calls, c ∈ w.calls := fun c hc => by
    rw [h.turns.calls] at hc
    exact h.waiting c hc
  have hwaits : ∀ c ∈ rest, c ∈ db.calls := fun c hc => by
    rw [h.turns.calls]
    exact hc
  -- the others keep what they have, as long as they are for the class of the one that makes the call
  have hothers : ∀ c ∈ w.calls, c.sync.stableUid = stableUid → ∀ classId, c.phase = .nameClass classId →
      ⟨classId, stableUid⟩ ∈ db.members := by
    intro c hc huid classId hphase
    have hfits' := hw.fits c hc
    rw [hphase] at hfits'
    refine h.member_kept hw hfits (hset.naming c hc huid classId hphase) hfits'.2 fun hs => ?_
    rw [← hsame hs c hc huid]
    exact hfits'.1
  have hplaced : ∀ e, w.log.find? (·.sync.stableUid = stableUid) = some e →
      (∀ c ∈ w.calls, c.sync.stableUid = stableUid → c.sync.target = e.sync.target) →
      (s.stableUid = stableUid → s.target = e.sync.target) →
        ∀ pair, e.sync.target = some pair → ∀ classId, e.classId = some classId →
          ⟨classId, stableUid⟩ ∈ db.members ∧ db.Known classId pair := by
    intro e he hcalls hs pair htarget classId hid
    obtain ⟨hm, hknown⟩ := hset.placed e he hcalls pair htarget classId hid
    exact ⟨h.member_kept hw hfits hm hknown fun huid => (hs huid).trans htarget, hknown.mono hevolves⟩
  rcases h.leads with ⟨phase', rfl, -, hname⟩ | ⟨result, rfl, hresult⟩
  · refine ⟨fun c hc c' hc' huid huid' => ?_, fun c hc huid classId hphase => ?_, fun e he hcalls => ?_⟩
    · rcases List.mem_cons.mp hc with rfl | hc <;> rcases List.mem_cons.mp hc' with rfl | hc'
      · rfl
      · exact (hsame huid c' (hmem c' hc') huid').symm
      · exact hsame huid' c (hmem c hc) huid
      · exact hset.same c (hmem c hc) c' (hmem c' hc') huid huid'
    · rcases List.mem_cons.mp hc with rfl | hc
      · exact huid ▸ hname classId hphase
      · exact hothers c (hmem c hc) huid classId hphase
    · have hs : s.stableUid = stableUid → s.target = e.sync.target := hcalls _ List.mem_cons_self
      refine hplaced e ?_ (fun c hc huid => ?_) hs
      · rw [← h.turns.log]
        exact he
      · rcases hrest c hc with hc | hsync
        · exact hcalls c (List.mem_cons_of_mem _ (hwaits c hc)) huid
        · rw [hsync] at huid ⊢
          exact hs huid
  · refine ⟨fun c hc c' hc' => hset.same c (hmem c hc) c' (hmem c' hc'), fun c hc => hothers c (hmem c hc),
      fun e he hcalls pair htarget classId hid => ?_⟩
    by_cases huid : s.stableUid = stableUid
    · -- the sign-in that has just ended is the last one
      have he' : (⟨s, result⟩ : Ended) = e := by
        have := List.find?_cons_of_pos (p := fun e : Ended => decide (e.sync.stableUid = stableUid)) (a := ⟨s, result⟩)
          (l := db.log) (by simpa using huid)
        exact Option.some.inj (this.symm.trans he)
      subst he'
      obtain ⟨hmember, hs, hknown⟩ := hresult classId hid
      have hpair : pair = (s.schoolId, s.klasseId) := Option.some.inj (htarget.symm.trans hs)
      refine ⟨?_, hpair ▸ hknown⟩
      rcases hmember with hmember | hphase
      · exact huid ▸ hmember
      · exact hothers _ (hnaming classId hphase) huid classId hphase
    · refine hplaced e ?_ (fun c hc hc' => ?_) (fun hs => absurd hs huid) pair htarget classId hid
      · rw [← h.turns.log, ← he]
        exact (List.find?_cons_of_neg (by simpa using huid)).symm
      · rcases hrest c hc with hc | hsync
        · exact hcalls c (hwaits c hc) hc'
        · rw [hsync] at hc'
          exact absurd hc' huid

theorem mem_erase_or {call c : Call} {calls : List Call} (h : c ∈ calls) : c ∈ calls.erase call ∨ c.sync = call.sync := by
  by_cases heq : c = call
  · exact .inr (heq ▸ rfl)
  · exact .inl ((List.mem_erase_of_ne heq).mpr h)

theorem World.Settled.step {m : Move} (hw : w.Holds) (hset : w.Settled stableUid) (hturn : w.inTurn stableUid m = true)
    (h : w.step m = some w') : w'.Settled stableUid := by
  rcases World.step_cases hw h with
    ⟨s, rfl, hacts⟩ | ⟨call, t, db, -, hcall, hacts⟩ | ⟨call, db, -, hcall, hacts⟩ | ⟨id, -, rfl⟩
  · refine hacts.settled hw nofun hset (fun huid c hc huid' => ?_) (fun c hc => .inl hc) nofun
    simp only [World.inTurn, Bool.or_eq_true, List.all_eq_true, decide_eq_true_eq] at hturn
    exact ((hturn.resolve_left (not_not.mpr huid)) c hc).resolve_left (not_not.mpr huid')
  · refine hacts.settled hw (fun left after hphase => ?_) hset (fun huid c hc huid' => hset.same c hc call hcall huid' huid)
      (fun c hc => mem_erase_or hc) (fun _ _ => hcall)
    have hfits := hw.fits call hcall
    rw [hphase] at hfits
    exact hfits.1
  · exact hacts.settled hw nofun hset (fun huid c hc huid' => hset.same c hc call hcall huid' huid)
      (fun c hc => mem_erase_or hc) nofun
  · refine ⟨hset.same, hset.naming, fun e he hcalls pair htarget classId hid => ?_⟩
    obtain ⟨hm, hknown⟩ := hset.placed e he hcalls pair htarget classId hid
    exact ⟨hm, hknown.mono (.of_eq rfl rfl)⟩

theorem World.Starts.settled (h : w.Starts) (stableUid : String) : w.Settled stableUid := by
  refine ⟨fun c hc => ?_, fun c hc => ?_, fun e he => ?_⟩
  · rw [h.calls] at hc
    cases hc
  · rw [h.calls] at hc
    cases hc
  · rw [h.log] at he
    cases he

theorem World.Settled.Placed (hw : w.Holds) (hset : w.Settled stableUid)
    (hidle : ∀ c ∈ w.calls, c.sync.stableUid ≠ stableUid) : w.Placed stableUid := by
  intro e he pair htarget classId hid
  obtain ⟨hm, hknown⟩ := hset.placed e he (fun c hc huid => absurd huid (hidle c hc)) pair htarget classId hid
  obtain ⟨c, hc, hcid⟩ := hw.sound.members _ hm
  exact ⟨hm, c, hc, hcid, hknown.2 c hc hcid⟩

/-! ### One class for each class of WebUntis -/

@[simp] theorem World.next_classes (w : World) (s : Sync) (phase : Phase) : (w.next s phase).classes = w.classes := rfl

@[simp] theorem World.ended_classes (w : World) (s : Sync) (result : Option String) :
    (w.ended s result).classes = w.classes := rfl

@[simp] theorem World.resume_classes (w : World) (s : Sync) (after : After) : (w.resume s after).classes = w.classes := by
  rcases after with - | (- | ⟨id, hasName⟩) <;> rfl

@[simp] theorem World.placed_classes (w : World) (s : Sync) (classId : String) (named : Bool) :
    (w.placed s classId named).classes = w.classes := by
  unfold World.placed
  split <;> rfl

theorem World.upsertMember_classes (h : w.upsertMember classId stableUid = some db) : db.classes = w.classes := by
  simp only [World.upsertMember, Option.ite_none_right_eq_some, Option.some.injEq] at h
  rw [← h.2]

@[simp] theorem World.begin_classes (w : World) (s : Sync) : (w.begin s).classes = w.classes := by
  unfold World.begin
  split
  · rfl
  · split
    · split <;> rfl
    · rfl

/-- A database call may create one class, if it is the one that creates. -/
theorem World.goOn_pairs (w : World) (t : Reading) (s : Sync) (phase : Phase) :
    ((w.goOn t s phase).classes.map Class.pair).Sublist (w.classes.map Class.pair) ∨
      phase = .createClass ∧ t.created = true ∧
        (w.goOn t s phase).classes.map Class.pair = w.classes.map Class.pair ++ [(s.schoolId, s.klasseId)] := by
  cases phase with
  | findMembership => exact .inl (List.Sublist.refl _)
  | findMemberships | findLeft | findClass | updateMember | findCreated =>
      refine .inl ?_
      simp only [World.goOn]
      split <;> simp
  | deleteMembers left after => exact .inl (List.Sublist.refl _)
  | deleteClasses left after =>
      simp only [World.goOn, World.resume_classes]
      exact .inl (List.filter_sublist.map _)
  | upsertMember classId named =>
      refine .inl ?_
      simp only [World.goOn]
      split
      · rename_i db hdb
        rw [World.placed_classes, World.upsertMember_classes hdb]
      · exact List.Sublist.refl _
  | createClass =>
      simp only [World.goOn]
      split
      · rename_i hcreated
        exact .inr ⟨trivial, hcreated, by simp [Class.pair]⟩
      · exact .inl (List.Sublist.refl _)
  | upsertCreated classId =>
      refine .inl ?_
      simp only [World.goOn]
      split
      · rename_i db hdb
        rw [World.ended_classes, World.upsertMember_classes hdb]
      · exact List.Sublist.refl _
  | nameClass classId =>
      refine .inl ?_
      simp only [World.goOn]
      split
      · rw [World.ended_classes, List.map_map]
        have hpairs : (w.classes.map (Class.pair ∘ fun c =>
            if c.id = classId then { c with name := trim s.klasseName } else c)) = w.classes.map Class.pair := by
          refine List.map_congr_left fun c hc => ?_
          simp only [Function.comp_apply]
          split <;> rfl
        rw [hpairs]
      · exact List.Sublist.refl _

theorem World.unique_iff (w : World) :
    w.Unique ↔ (w.classes.map Class.pair).Pairwise fun p q => p = q → p.2 ≤ 0 := by
  rw [List.pairwise_map]
  rfl

theorem World.Unique.step {m : Move} (hw : w.Unique) (hlooked : w.looked m = true) (h : w.step m = some w') : w'.Unique := by
  cases m with
  | signIn s =>
      simp only [World.step, Option.some.injEq] at h
      rw [World.unique_iff, ← h, World.begin_classes, ← World.unique_iff]
      exact hw
  | goOn call t =>
      simp only [World.step, Option.ite_none_right_eq_some, Option.some.injEq] at h
      obtain ⟨-, rfl⟩ := h
      rw [World.unique_iff] at hw ⊢
      rcases World.goOn_pairs { w with calls := w.calls.erase call } t call.sync call.phase with
        hsub | ⟨hphase, hcreated, hpairs⟩
      · exact hw.sublist hsub
      · rw [hpairs, List.pairwise_append]
        refine ⟨hw, List.pairwise_singleton _ _, fun p hp q hq heq => ?_⟩
        rw [List.mem_singleton] at hq
        obtain ⟨c, hc, rfl⟩ := List.mem_map.mp hp
        obtain ⟨s, phase⟩ := call
        cases hphase
        simp only [World.looked, hcreated, Bool.not_true, Bool.false_or, List.all_eq_true, decide_eq_true_eq] at hlooked
        exact absurd (heq.trans hq) (hlooked c hc)
  | fail call =>
      simp only [World.step, Option.ite_none_right_eq_some, Option.some.injEq] at h
      rw [← h.2]
      exact hw
  | addReminder classId =>
      simp only [World.step, Option.ite_none_right_eq_some, Option.some.injEq] at h
      rw [← h.2]
      exact hw

/-! ### Whole runs -/

/-- **Sign-ins and the classes they meet.** -/
theorem sign_ins_and_classes {w₀ : World} {moves : List Move} (h₀ : w₀.Starts) (hrun : run World.step w₀ moves = some w) :
    (∀ m w', w.step m = some w' → w.DeletesUnused w') ∧
      (Meets World.step (fun w m => w.looked m = true) w₀ moves → w.Unique) ∧
      ∀ stableUid, Meets World.step (fun w m => w.inTurn stableUid m = true) w₀ moves →
        (∀ c ∈ w.calls, c.sync.stableUid ≠ stableUid) → w.Placed stableUid := by
  have hholds : w.Holds := run_invariant (fun _ _ _ hw h => World.Holds.step hw h) h₀.holds hrun
  refine ⟨fun m w' h => hholds.deletes h, fun hmeets => ?_, fun stableUid hmeets hidle => ?_⟩
  · exact run_invariant_of_meets (fun _ _ _ hw hlooked h => World.Unique.step hw hlooked h) h₀.unique hmeets hrun
  · have hboth : w.Holds ∧ w.Settled stableUid :=
      run_invariant_of_meets (P := fun w : World => w.Holds ∧ w.Settled stableUid)
        (fun _ _ _ hw hturn h => ⟨hw.1.step h, hw.2.step hw.1 hturn h⟩) ⟨h₀.holds, h₀.settled stableUid⟩ hmeets hrun
    exact hboth.2.Placed hboth.1 hidle

/-- The database before the first sign-in. -/
def fresh : World := ⟨[], [], [], [], [], []⟩

theorem fresh_starts : fresh.Starts :=
  ⟨rfl, rfl, nofun, List.nodup_nil, nofun, List.Pairwise.nil⟩

def anna : Sync := ⟨"anna", 5, "5A", .student, "bb", true⟩

def ben : Sync := ⟨"ben", 5, "5A", .student, "bb", true⟩

def reading (newId : String) : Reading := ⟨0, newId, true⟩

/-- One sign-in, from its first database call to its last. -/
def signsIn (s : Sync) (newId : String) : List Move :=
  [.signIn s, .goOn ⟨s, .findMemberships⟩ (reading newId), .goOn ⟨s, .findClass⟩ (reading newId),
    .goOn ⟨s, .createClass⟩ (reading newId)]

theorem sign_ins_and_classes_anna :
    ∃ w, run World.step fresh (signsIn anna "c1") = some w ∧ w.Unique ∧ w.Placed "anna" ∧
      ∀ m w', w.step m = some w' → w.DeletesUnused w' := by
  have hrun : run World.step fresh (signsIn anna "c1") = some _ := rfl
  obtain ⟨hdeletes, hunique, hplaced⟩ := sign_ins_and_classes fresh_starts hrun
  exact ⟨_, rfl, hunique (by decide +kernel), hplaced "anna" (by decide +kernel) (by decide +kernel), hdeletes⟩

/-- Two accounts of a class sign in for the first time, and both look for the class before either has made it. -/
def signInTogether : List Move :=
  [.signIn anna, .signIn ben, .goOn ⟨anna, .findMemberships⟩ (reading "c1"), .goOn ⟨ben, .findMemberships⟩ (reading "c2"),
    .goOn ⟨anna, .findClass⟩ (reading "c1"), .goOn ⟨ben, .findClass⟩ (reading "c2"),
    .goOn ⟨anna, .createClass⟩ (reading "c1"), .goOn ⟨ben, .createClass⟩ (reading "c2")]

/-- Nothing makes a second class of a pair impossible, so the sign-in that comes second makes it. -/
theorem two_first_sign_ins :
    ∃ w, run World.step fresh signInTogether = some w ∧ w.calls = [] ∧
      w.classes.map (fun c => (c.id, c.pair)) = [("c1", "bb", 5), ("c2", "bb", 5)] ∧ ¬ w.Unique := by
  refine ⟨_, rfl, rfl, rfl, fun h => ?_⟩
  exact absurd (List.rel_of_pairwise_cons h List.mem_cons_self rfl) (by decide)

end Pokyh.Account.Classes

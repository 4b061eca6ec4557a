import Mathlib.Data.Set.Insert
import Pokyh.Lib.Groups
import Pokyh.Lib.Selections
import Pokyh.School.Rollover

/-!
# School — Notices

Popups (`popups.ts`) and recaps (`recaps.ts`, `recapRules.ts`): what an editor saves, for whom, and who
gets to see it.  A notice without targets is meant for everyone; its targets are rows of their own, and
those that name an account go with the account.

* `popup_shown`: an account is shown a popup only if the popup's choice reaches it.
* `recapReaches_iff`: a recap reaches exactly the accounts its choice reaches.
-/

namespace Pokyh.School
open Pokyh.Lib

/-! ### The rows -/

inductive Platform where
  | all | web | android | ios
  deriving DecidableEq, Repr

inductive PopupAudience where
  | all | users | guests
  deriving DecidableEq, Repr

inductive Mode where
  | once | recurring
  deriving DecidableEq, Repr

structure Popup where
  id : String
  title : String
  content : String
  contentHtml : String
  platform : Platform
  audience : PopupAudience
  mode : Mode
  showCount : ℕ
  startsAt : Option Time
  endsAt : Option Time
  enabled : Bool
  revision : ℕ
  /-- None: every school. -/
  schoolId : Option String
  targetUsers : List String
  targetClasses : List ℤ
  deriving DecidableEq, Repr

/-- Whom a recap is for. -/
structure RecapReach where
  /-- None: every school. -/
  schoolId : Option String
  targetSchools : List String
  targetClasses : List (String × ℤ)
  targetUsers : List String
  deriving DecidableEq, Repr

structure Recap extends RecapReach where
  id : String
  title : String
  periodFrom : String
  periodTo : String
  startsAt : Option Time
  endsAt : Option Time
  sections : String
  enabled : Bool
  deriving DecidableEq, Repr

/-- The signed-in account of a request. -/
structure Account where
  stableUid : String
  schoolId : Option String
  klasseId : ℤ
  role : String
  deriving DecidableEq, Repr

/-! ### Who a popup is shown to -/

/-- `?audience=`: whom the client asks for. -/
inductive Asking where
  | user | guest
  deriving DecidableEq, Repr

/-- A popup as the feed hands it out. -/
structure PopupRow where
  id : String
  revision : ℕ
  title : String
  html : String
  showCount : ℕ
  startsAt : Option Time
  endsAt : Option Time
  slotMs : Option ℤ
  deriving DecidableEq, Repr

/-- The length of one display slot. -/
def Popup.slotMs (p : Popup) : Option ℤ :=
  match p.mode, p.startsAt, p.endsAt with
  | .recurring, some startsAt, some endsAt => some ((endsAt - startsAt) / p.showCount)
  | _, _, _ => none

def Popup.row (p : Popup) : PopupRow where
  id := p.id
  revision := p.revision
  title := p.title
  html := p.contentHtml
  showCount := p.showCount
  startsAt := p.startsAt
  endsAt := p.endsAt
  slotMs := p.slotMs

/-- The account as far as the popup feed looks at it. -/
structure Visitor where
  stableUid : String
  klasseId : ℤ
  schoolId : Option String
  deriving DecidableEq, Repr

def Account.visitor (a : Account) : Visitor where
  stableUid := a.stableUid
  klasseId := if 0 < a.klasseId then a.klasseId else 0
  schoolId := a.schoolId

/-- What a request of the popup feed depends on. -/
structure PopupQuery where
  platform : Platform
  asking : Asking
  user : Option Visitor
  deriving DecidableEq, Repr

def Popup.meantFor (p : Popup) (user : Option Visitor) : Bool :=
  (p.targetUsers.isEmpty && p.targetClasses.isEmpty) ||
    user.any fun v => v.stableUid ∈ p.targetUsers || (v.klasseId ≠ 0 && v.klasseId ∈ p.targetClasses)

/-- The feed's `where`. -/
def Popup.matches (now : Time) (q : PopupQuery) (p : Popup) : Bool :=
  p.enabled &&
    (p.platform = .all || p.platform = q.platform) &&
    (p.audience = .all || p.audience = match q.asking with
      | .guest => .guests
      | .user => .users) &&
    p.startsAt.all (· ≤ now) && p.endsAt.all (now < ·) &&
    p.meantFor q.user &&
    (p.schoolId.isNone || (q.user.bind Visitor.schoolId).any fun s => p.schoolId = some s)

/-! ### Who a recap reaches -/

def RecapReach.chosen (r : RecapReach) : Bool :=
  !r.targetSchools.isEmpty || !r.targetClasses.isEmpty || !r.targetUsers.isEmpty

def recapReaches (r : RecapReach) (a : Account) : Bool :=
  if r.schoolId.isSome && a.schoolId ≠ r.schoolId then false
  else if a.stableUid ∈ r.targetUsers then true
  else if a.role = "parent" then false
  else if !r.chosen then true
  else if a.schoolId.any (· ∈ r.targetSchools) then true
  else 0 < a.klasseId && r.targetClasses.any fun c => some c.1 = a.schoolId && c.2 = a.klasseId

/-! ### What a choice means -/

inductive Target where
  | user (stableUid : String)
  | «class» (schoolId : Option String) (klasseId : ℤ)
  | school (id : String)
  deriving DecidableEq, Repr

/-- The choice of an editor: a school or every school, and the targets. -/
structure Choice where
  schoolId : Option String
  targets : Set Target

/-- The accounts a popup's target covers. -/
def Target.popupCovers : Target → Set (Option Visitor)
  | .user uid => {v | ∃ w, v = some w ∧ w.stableUid = uid}
  | .class _ klasseId => {v | ∃ w, v = some w ∧ w.klasseId ≠ 0 ∧ w.klasseId = klasseId}
  | .school _ => ∅

/-- The accounts a recap's target covers: parents only by name. -/
def Target.recapCovers : Target → Set Account
  | .user uid => {a | a.stableUid = uid}
  | .class schoolId klasseId => {a | a.role ≠ "parent" ∧ 0 < a.klasseId ∧ a.schoolId = schoolId ∧
      a.klasseId = klasseId}
  | .school id => {a | a.role ≠ "parent" ∧ a.schoolId = some id}

/-- Whom a popup's choice is for: everyone when it has no targets. -/
def Choice.popupReach (c : Choice) : Set (Option Visitor) :=
  {v | ∀ s, c.schoolId = some s → v.bind Visitor.schoolId = some s} ∩
    reach Set.univ Target.popupCovers c.targets

/-- Whom a recap's choice is for: every student when it has no targets. -/
def Choice.recapReach (c : Choice) : Set Account :=
  {a | ∀ s, c.schoolId = some s → a.schoolId = some s} ∩
    reach {a | a.role ≠ "parent"} Target.recapCovers c.targets

def Popup.choice (p : Popup) : Choice where
  schoolId := p.schoolId
  targets := {t | (∃ uid ∈ p.targetUsers, t = .user uid) ∨ ∃ k ∈ p.targetClasses, t = .class none k}

def RecapReach.choice (r : RecapReach) : Choice where
  schoolId := r.schoolId
  targets := {t | (∃ uid ∈ r.targetUsers, t = .user uid) ∨ (∃ s ∈ r.targetSchools, t = .school s) ∨
    ∃ c ∈ r.targetClasses, t = .class (some c.1) c.2}

theorem Popup.choice_targets_eq_empty {p : Popup} :
    p.choice.targets = ∅ ↔ p.targetUsers = [] ∧ p.targetClasses = [] := by
  constructor
  · intro h
    have hno : ∀ t, t ∉ p.choice.targets := Set.eq_empty_iff_forall_notMem.mp h
    exact ⟨List.eq_nil_iff_forall_not_mem.mpr fun uid hu => hno (.user uid) (.inl ⟨uid, hu, rfl⟩),
      List.eq_nil_iff_forall_not_mem.mpr fun k hk => hno (.class none k) (.inr ⟨k, hk, rfl⟩)⟩
  · rintro ⟨hu, hc⟩
    ext t
    simp [Popup.choice, hu, hc]

theorem RecapReach.choice_targets_eq_empty {r : RecapReach} :
    r.choice.targets = ∅ ↔ r.targetSchools = [] ∧ r.targetClasses = [] ∧ r.targetUsers = [] := by
  constructor
  · intro h
    have hno : ∀ t, t ∉ r.choice.targets := Set.eq_empty_iff_forall_notMem.mp h
    exact ⟨List.eq_nil_iff_forall_not_mem.mpr fun s hs => hno (.school s) (.inr (.inl ⟨s, hs, rfl⟩)),
      List.eq_nil_iff_forall_not_mem.mpr fun c hc => hno (.class (some c.1) c.2) (.inr (.inr ⟨c, hc, rfl⟩)),
      List.eq_nil_iff_forall_not_mem.mpr fun uid hu => hno (.user uid) (.inl ⟨uid, hu, rfl⟩)⟩
  · rintro ⟨hs, hc, hu⟩
    ext t
    simp [RecapReach.choice, hs, hc, hu]

/-- **Who is shown a popup is among those its choice is for.** -/
theorem popup_shown {p : Popup} {now : Time} {q : PopupQuery} (h : p.matches now q = true) :
    q.user ∈ p.choice.popupReach := by
  simp only [Popup.matches, Bool.and_eq_true] at h
  obtain ⟨⟨-, hmeant⟩, hschool⟩ := h
  constructor
  · intro s hs
    have hs : p.schoolId = some s := hs
    rw [hs, Option.isNone_some, Bool.false_or, Option.any_eq_true] at hschool
    obtain ⟨s', hs', heq⟩ := hschool
    rw [hs', of_decide_eq_true heq]
  · rw [Popup.meantFor, Bool.or_eq_true, Bool.and_eq_true] at hmeant
    rcases hmeant with ⟨hu, hc⟩ | huser
    · exact .inl ⟨Popup.choice_targets_eq_empty.mpr
        ⟨List.isEmpty_iff.mp hu, List.isEmpty_iff.mp hc⟩, trivial⟩
    · obtain ⟨v, hv, hin⟩ := (Option.any_eq_true _ _).mp huser
      rw [Bool.or_eq_true, Bool.and_eq_true] at hin
      rcases hin with huid | ⟨hpos, hk⟩
      · exact .inr ⟨.user v.stableUid, .inl ⟨_, of_decide_eq_true huid, rfl⟩, v, hv, rfl⟩
      · exact .inr ⟨.class none v.klasseId, .inr ⟨_, of_decide_eq_true hk, rfl⟩, v, hv, of_decide_eq_true hpos, rfl⟩

theorem RecapReach.chosen_eq_false {r : RecapReach} : r.chosen = false ↔ r.choice.targets = ∅ := by
  rw [RecapReach.choice_targets_eq_empty]
  simp [RecapReach.chosen, and_assoc]

/-- **A recap reaches exactly the accounts its choice is for.** -/
theorem recapReaches_iff {r : RecapReach} {a : Account} :
    recapReaches r a = true ↔ a ∈ r.choice.recapReach := by
  have hschool : (r.schoolId.isSome && decide (a.schoolId ≠ r.schoolId)) = false ↔
      ∀ s, r.choice.schoolId = some s → a.schoolId = some s := by
    cases h : r.schoolId <;> simp [RecapReach.choice, h]
  have hreach : a ∈ reach {a | a.role ≠ "parent"} Target.recapCovers r.choice.targets ↔
      a.stableUid ∈ r.targetUsers ∨ a.role ≠ "parent" ∧ (r.chosen = false ∨
        (∃ s ∈ r.targetSchools, a.schoolId = some s) ∨
        (0 < a.klasseId ∧ ∃ c ∈ r.targetClasses, some c.1 = a.schoolId ∧ c.2 = a.klasseId)) := by
    rw [mem_reach, ← RecapReach.chosen_eq_false]
    constructor
    · rintro (⟨hno, ha⟩ | ⟨t, ht, ha⟩)
      · exact .inr ⟨ha, .inl hno⟩
      · rcases ht with ⟨uid, hu, rfl⟩ | ⟨s, hs, rfl⟩ | ⟨c, hc, rfl⟩
        · exact .inl ((show a.stableUid = uid from ha) ▸ hu)
        · exact .inr ⟨ha.1, .inr (.inl ⟨s, hs, ha.2⟩)⟩
        · exact .inr ⟨ha.1, .inr (.inr ⟨ha.2.1, c, hc, ha.2.2.1.symm, ha.2.2.2.symm⟩)⟩
    · rintro (hu | ⟨hrole, hno | ⟨s, hs, hsc⟩ | ⟨hpos, c, hc, hsc, hk⟩⟩)
      · exact .inr ⟨.user a.stableUid, .inl ⟨_, hu, rfl⟩, rfl⟩
      · exact .inl ⟨hno, hrole⟩
      · exact .inr ⟨.school s, .inr (.inl ⟨s, hs, rfl⟩), hrole, hsc⟩
      · exact .inr ⟨.class (some c.1) c.2, .inr (.inr ⟨c, hc, rfl⟩), hrole, hpos, hsc.symm, hk.symm⟩
  rw [Choice.recapReach, Set.mem_inter_iff, hreach, Set.mem_ofPred_eq, ← hschool, recapReaches]
  have hsc : a.schoolId.any (fun s => decide (s ∈ r.targetSchools)) = true ↔
      ∃ s ∈ r.targetSchools, a.schoolId = some s := by
    rw [Option.any_eq_true]
    exact ⟨fun ⟨s, hs, hin⟩ => ⟨s, of_decide_eq_true hin, hs⟩, fun ⟨s, hin, hs⟩ => ⟨s, hs, decide_eq_true hin⟩⟩
  have hcl : (decide (0 < a.klasseId) && r.targetClasses.any fun c => some c.1 = a.schoolId && c.2 = a.klasseId) =
      true ↔ 0 < a.klasseId ∧ ∃ c ∈ r.targetClasses, some c.1 = a.schoolId ∧ c.2 = a.klasseId := by
    simp
  rw [← hsc, ← hcl]
  generalize (r.schoolId.isSome && decide (a.schoolId ≠ r.schoolId)) = elsewhere
  generalize a.schoolId.any (fun s => decide (s ∈ r.targetSchools)) = inSchool
  cases elsewhere with
  | true => simp
  | false =>
      by_cases hu : a.stableUid ∈ r.targetUsers
      · simp [hu]
      · by_cases hrole : a.role = "parent"
        · simp [hu, hrole]
        · cases r.chosen <;> cases inSchool <;> simp [hu, hrole]

/-! ### What is left of a choice -/

/-- The same school, some of the targets, and not none of them. -/
structure Choice.Narrows (c' c : Choice) : Prop where
  schoolId : c'.schoolId = c.schoolId
  targets : c'.targets ⊆ c.targets
  left : c.targets.Nonempty → c'.targets.Nonempty

theorem Choice.Narrows.popupReach {c' c : Choice} (h : c'.Narrows c) : c'.popupReach ⊆ c.popupReach :=
  fun _ ⟨hs, hr⟩ => ⟨h.schoolId ▸ hs, reach_mono h.targets h.left hr⟩

theorem Choice.Narrows.recapReach {c' c : Choice} (h : c'.Narrows c) : c'.recapReach ⊆ c.recapReach :=
  fun _ ⟨hs, hr⟩ => ⟨h.schoolId ▸ hs, reach_mono h.targets h.left hr⟩

end Pokyh.School

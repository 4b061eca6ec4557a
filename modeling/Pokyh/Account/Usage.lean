import Mathlib.Data.Rat.Floor
import Mathlib.Algebra.BigOperators.Group.List.Basic
import Mathlib.Tactic.Linarith
import Pokyh.Lib.Runs

/-!
# Account — Usage

The pings of one visit (`routes/usage.ts`, `creditedSeconds` of `services/usageAnalytics.ts`): each reads the visit's row, writes what it is
credited with, and adds it to its class's totals.  Pings of several nodes do so at once.

* `creditedSeconds_le_clock`, `creditedSeconds_le_room`: a credit is bounded by the time since the last ping and by the room that is left.
* `seconds_flush`: what is summed for the classes is what is written.
* `World.Counted`: the invariant.  What is stored is bounded by the time from the visit's start to its last ping.
* `usage_counted_once`: **time is counted once in every run in which no ping writes over what another wrote since it read**, and what a ping adds
  to its class is what it added to the visit.
* `race_counted_twice`: pings that read the same row are each credited with the same time.

What a ping has changed (`gained`, `given`) is measured at its steps; nothing reads it but the statements.
-/

namespace Pokyh.Account.Usage
open Pokyh.Lib

/-! ### Credits -/

def MAX_PING_SECONDS : ℤ := 300

def MAX_SESSION_SECONDS : ℤ := 12 * 60 * 60

def MAX_PING_SCREENS : ℤ := 60

def FIRST_PING_WINDOW_MS : ℤ := 115 * 1000

def creditedSeconds (reported sinceLastPingMs alreadyCredited : ℤ) : ℤ :=
  if reported ≤ 0 then 0
  else
    let wallClock : ℚ := ((max 0 sinceLastPingMs : ℤ) : ℚ) / 1000 + 5
    let room := max 0 (MAX_SESSION_SECONDS - max 0 alreadyCredited)
    ⌊min (min (min (reported : ℚ) wallClock) MAX_PING_SECONDS) room⌋

theorem creditedSeconds_nonneg (reported since already : ℤ) : 0 ≤ creditedSeconds reported since already := by
  rw [creditedSeconds]
  split
  · exact Int.le_refl 0
  · rename_i hreported
    have hsince : (0 : ℚ) ≤ ((max 0 since : ℤ) : ℚ) := by exact_mod_cast le_max_left 0 since
    have hroom : (0 : ℚ) ≤ ((max 0 (MAX_SESSION_SECONDS - max 0 already) : ℤ) : ℚ) := by exact_mod_cast le_max_left 0 _
    have hpos : (0 : ℚ) ≤ (reported : ℚ) := by exact_mod_cast (not_le.mp hreported).le
    have hmost : (0 : ℚ) ≤ ((MAX_PING_SECONDS : ℤ) : ℚ) := by norm_num [MAX_PING_SECONDS]
    exact Int.floor_nonneg.mpr (le_min (le_min (le_min hpos (by linarith)) hmost) hroom)

/-- No more than the time since the last ping, and five seconds. -/
theorem creditedSeconds_le_clock (reported since already : ℤ) : 1000 * creditedSeconds reported since already ≤ max 0 since + 5000 := by
  rw [creditedSeconds]
  split
  · have hsince := le_max_left 0 since
    omega
  · have hfloor : ((⌊min (min (min (reported : ℚ) (((max 0 since : ℤ) : ℚ) / 1000 + 5)) MAX_PING_SECONDS)
        ((max 0 (MAX_SESSION_SECONDS - max 0 already) : ℤ) : ℚ)⌋ : ℤ) : ℚ) ≤ ((max 0 since : ℤ) : ℚ) / 1000 + 5 :=
      (Int.floor_le _).trans ((min_le_left _ _).trans ((min_le_left _ _).trans (min_le_right _ _)))
    have hscaled : ((1000 * ⌊min (min (min (reported : ℚ) (((max 0 since : ℤ) : ℚ) / 1000 + 5)) MAX_PING_SECONDS)
        ((max 0 (MAX_SESSION_SECONDS - max 0 already) : ℤ) : ℚ)⌋ : ℤ) : ℚ) ≤ ((max 0 since + 5000 : ℤ) : ℚ) := by
      push_cast at hfloor ⊢
      linarith
    exact_mod_cast hscaled

/-- No more than the room that is left. -/
theorem creditedSeconds_le_room (reported since already : ℤ) :
    creditedSeconds reported since already ≤ max 0 (MAX_SESSION_SECONDS - max 0 already) := by
  rw [creditedSeconds]
  split
  · exact le_max_left 0 _
  · exact Int.floor_le_iff.mpr (lt_of_le_of_lt (min_le_right _ _) (by linarith))

/-! ### Pings and rows -/

/-- What a ping says, who sends it, whether its row may name them, when it comes (in milliseconds) and to which node. -/
structure Ping where
  activeSeconds : ℤ
  screens : ℤ
  account : Option String
  named : Bool
  now : ℤ
  node : ℕ

/-- The row of the visit, as far as a ping reads it again. -/
structure Visit where
  stableUid : Option String
  visitorKey : Option String
  dayKey : String
  activeSeconds : ℤ
  screens : ℤ
  startedAt : ℤ
  lastSeenAt : ℤ
  deriving DecidableEq, Repr

structure Totals where
  seconds : ℤ
  visits : ℤ
  people : ℤ
  deriving DecidableEq, Repr

structure ClassKey where
  dayKey : String
  schoolId : String
  klasse : String
  deriving DecidableEq, Repr

/-- Where a ping is: it has read the row, or written it and has its class's totals to add to, or is over (`unclassed` when its sender has no
class). -/
inductive Phase where
  | waiting (retried : Bool)
  | found (existing : Option Visit) (retried : Bool)
  | counted (dayKey : String) (added : Totals)
  | over (unclassed : Bool)
  deriving DecidableEq, Repr

/-- The row that a ping has read. -/
def Phase.seen : Phase → Option Visit
  | .found existing _ => existing
  | _ => none

/-- The key of a visitor on a day, and the local day of a moment. -/
structure Services where
  visitorKeyFor : String → String → String
  dayKey : ℤ → String

/-- Adds to the totals under a key. -/
def addTo {K : Type} [DecidableEq K] (key : K) (t : Totals) : List (K × Totals) → List (K × Totals)
  | [] => [(key, t)]
  | (k, u) :: rest =>
    if k = key then (k, ⟨u.seconds + t.seconds, u.visits + t.visits, u.people + t.people⟩) :: rest else (k, u) :: addTo key t rest

structure World where
  row : Option Visit
  phases : ℕ → Phase
  classTotals : ℕ → List (ClassKey × Totals)
  classDay : List ((String × String) × Totals)
  schoolClassDay : List (ClassKey × Totals)
  applied : List ℤ
  gained : ℕ → ℤ
  given : ℕ → ℤ

inductive Move where
  | find (ping : ℕ)
  | write (ping : ℕ) (firstToday : Bool)
  /-- With the class and the school of the sender, where there is one and it can be looked up. -/
  | addToClass (ping : ℕ) (klasse : Option (String × String))
  /-- The summed totals of a node are written; the writes of these keys fail. -/
  | flush (node : ℕ) (failedDays : List (String × String)) (failedSchools : List ClassKey)

def World.empty : World := ⟨none, fun _ => .waiting false, fun _ => [], [], [], [], fun _ => 0, fun _ => 0⟩

/-- Another account's visit. -/
def Ping.isOthers (p : Ping) (s : Services) (existing : Visit) : Bool :=
  let visitorKey := p.account.map fun account => s.visitorKeyFor account existing.dayKey
  (existing.visitorKey.isSome && visitorKey.isSome && existing.visitorKey ≠ visitorKey) ||
    (existing.stableUid.isSome && p.account.isSome && existing.stableUid ≠ p.account)

/-- The row of a visit that the ping begins. -/
def Ping.create (p : Ping) (s : Services) : Visit where
  stableUid := if p.named then p.account else none
  visitorKey := p.account.map fun account => s.visitorKeyFor account (s.dayKey p.now)
  dayKey := s.dayKey p.now
  activeSeconds := creditedSeconds p.activeSeconds FIRST_PING_WINDOW_MS 0
  screens := min p.screens MAX_PING_SCREENS
  startedAt := p.now
  lastSeenAt := p.now

/-- What the ping is credited with, by the row that it has read. -/
def Ping.credit (p : Ping) (existing : Visit) : ℤ :=
  creditedSeconds p.activeSeconds (p.now - existing.lastSeenAt) existing.activeSeconds

/-- The row after the ping, which read `existing`. -/
def Ping.update (p : Ping) (s : Services) (existing row : Visit) : Visit :=
  let visitorKey := p.account.map fun account => s.visitorKeyFor account existing.dayKey
  { row with
    activeSeconds := row.activeSeconds + p.credit existing
    screens := row.screens + min p.screens MAX_PING_SCREENS
    lastSeenAt := p.now
    visitorKey := if visitorKey.isSome && existing.visitorKey.isNone then visitorKey else row.visitorKey
    stableUid :=
      if p.named && p.account.isSome && existing.stableUid.isNone then p.account
      else if !p.named && existing.stableUid.isSome then none else row.stableUid }

namespace World

def setPhase (w : World) (i : ℕ) (phase : Phase) : World := { w with phases := Function.update w.phases i phase }

/-- The writes of `applyPing`: one that finds that another has begun the visit reads once more. -/
def write (w : World) (s : Services) (p : Ping) (i : ℕ) (existing : Option Visit) (retried firstToday : Bool) : World :=
  match existing with
  | none =>
    match w.row with
    | none =>
      let credited := creditedSeconds p.activeSeconds FIRST_PING_WINDOW_MS 0
      { w with row := some (p.create s), applied := w.applied ++ [p.now] }.setPhase i
        (if p.account.isSome then .counted (s.dayKey p.now) ⟨credited, 1, if firstToday then 1 else 0⟩ else .over true)
    | some _ => w.setPhase i (if retried then .over false else .waiting true)
  | some existing =>
    if p.isOthers s existing then w.setPhase i (.over false)
    else
      match w.row with
      | none => w.setPhase i (.over false)
      | some row =>
        { w with row := some (p.update s existing row), applied := w.applied ++ [p.now] }.setPhase i
          (if p.account.isSome then if p.credit existing > 0 then .counted existing.dayKey ⟨p.credit existing, 0, 0⟩ else .over false else .over true)

def addToClass (w : World) (p : Ping) (i : ℕ) (dayKey : String) (t : Totals) (klasse : Option (String × String)) : World :=
  if t = ⟨0, 0, 0⟩ then w.setPhase i (.over false)
  else
    match klasse with
    | none => w.setPhase i (.over true)
    | some (klasse, schoolId) =>
      { w with classTotals := Function.update w.classTotals p.node (addTo ⟨dayKey, schoolId, klasse⟩ t (w.classTotals p.node)) }.setPhase i
        (.over false)

/-- Best effort: what cannot be written is lost. -/
def flush (w : World) (node : ℕ) (failedDays : List (String × String)) (failedSchools : List ClassKey) : World :=
  let batch := w.classTotals node
  let bySchoolless := batch.foldl (fun sums t => addTo (t.1.dayKey, t.1.klasse) t.2 sums) []
  { w with
    classTotals := Function.update w.classTotals node []
    classDay := bySchoolless.foldl (fun table t => if t.1 ∈ failedDays then table else addTo t.1 t.2 table) w.classDay
    schoolClassDay := batch.foldl (fun table t => if t.1 ∈ failedSchools then table else addTo t.1 t.2 table) w.schoolClassDay }

variable (s : Services) (pings : ℕ → Ping)

/-- The next step of a ping. -/
def move (w : World) : Move → Option World
  | .find i =>
    match w.phases i with
    | .waiting retried => some (w.setPhase i (.found w.row retried))
    | _ => none
  | .write i firstToday =>
    match w.phases i with
    | .found existing retried => some (w.write s (pings i) i existing retried firstToday)
    | _ => none
  | .addToClass i klasse =>
    match w.phases i with
    | .counted dayKey t => some (w.addToClass (pings i) i dayKey t klasse)
    | _ => none
  | .flush node failedDays failedSchools => some (w.flush node failedDays failedSchools)

/-! ### What is measured -/

def active (w : World) : ℤ := w.row.elim 0 (·.activeSeconds)

def seconds {K : Type} (totals : List (K × Totals)) : ℤ := (totals.map (·.2.seconds)).sum

/-- What a step of the ping has changed. -/
def watch (w w' : World) (i node : ℕ) : World :=
  { w' with
    gained := Function.update w.gained i (w.gained i + (w'.active - w.active))
    given := Function.update w.given i (w.given i + (seconds (w'.classTotals node) - seconds (w.classTotals node))) }

def step (w : World) (a : Move) : Option World :=
  (w.move s pings a).map fun w' =>
    match a with
    | .find i | .write i _ | .addToClass i _ => w.watch w' i (pings i).node
    | .flush .. => w'

/-- A ping writes the row as it has read it, and not with an earlier time. -/
def Careful (w : World) : Move → Prop
  | .write i _ =>
    ∀ existing ∈ (w.phases i).seen, ∀ row ∈ w.row, (pings i).isOthers s existing = false →
      row.activeSeconds = existing.activeSeconds ∧ row.lastSeenAt = existing.lastSeenAt ∧ row.lastSeenAt ≤ (pings i).now
  | _ => True

instance (w : World) (a : Move) : Decidable (Careful s pings w a) :=
  match a with
  | .write i _ =>
    inferInstanceAs (Decidable (∀ existing ∈ (w.phases i).seen, ∀ row ∈ w.row, (pings i).isOthers s existing = false →
      row.activeSeconds = existing.activeSeconds ∧ row.lastSeenAt = existing.lastSeenAt ∧ row.lastSeenAt ≤ (pings i).now))
  | .find _ | .addToClass .. | .flush .. => .isTrue trivial

/-- The latest ping that the row has taken. -/
def Latest (w : World) (t : ℤ) : Prop := t ∈ w.applied ∧ ∀ t' ∈ w.applied, t' ≤ t

/-- No time is counted twice, and what a ping that is over has added to its class is what it added to the visit, where it has one. -/
structure CountedOnce (w : World) : Prop where
  capped : ∀ row ∈ w.row, row.activeSeconds ≤ MAX_SESSION_SECONDS
  bounded : ∀ row ∈ w.row, ∀ t, w.Latest t →
    1000 * row.activeSeconds ≤ (t - row.startedAt) + FIRST_PING_WINDOW_MS + 5000 * w.applied.length
  classes : ∀ i unclassed, w.phases i = .over unclassed → w.given i = if unclassed then 0 else w.gained i

end World

namespace World
variable {s : Services} {pings : ℕ → Ping}

/-! ### Steps -/

theorem seconds_addTo {K : Type} [DecidableEq K] (key : K) (t : Totals) (totals : List (K × Totals)) :
    seconds (addTo key t totals) = seconds totals + t.seconds := by
  induction totals with
  | nil => simp [addTo, seconds]
  | cons entry rest ih =>
      obtain ⟨k, u⟩ := entry
      by_cases hk : k = key
      · simp only [addTo, if_pos hk, seconds, List.map_cons, List.sum_cons]
        omega
      · simp only [seconds] at ih
        simp only [addTo, if_neg hk, seconds, List.map_cons, List.sum_cons, ih]
        omega

theorem seconds_foldl_addTo {K L : Type} [DecidableEq L] (key : K → L) (batch : List (K × Totals)) (table : List (L × Totals)) :
    seconds (batch.foldl (fun sums t => addTo (key t.1) t.2 sums) table) = seconds table + seconds batch := by
  induction batch generalizing table with
  | nil => simp [seconds]
  | cons t batch ih =>
      rw [List.foldl_cons, ih, seconds_addTo]
      simp only [seconds, List.map_cons, List.sum_cons]
      omega

/-- A flush that fails nowhere writes what was added, to both tables. -/
theorem seconds_flush (w : World) (node : ℕ) :
    seconds (w.flush node [] []).classDay = seconds w.classDay + seconds (w.classTotals node) ∧
      seconds (w.flush node [] []).schoolClassDay = seconds w.schoolClassDay + seconds (w.classTotals node) := by
  have hbatch : seconds ((w.classTotals node).foldl (fun sums t => addTo (t.1.dayKey, t.1.klasse) t.2 sums) []) = seconds (w.classTotals node) := by
    have hsum := seconds_foldl_addTo (fun key : ClassKey => (key.dayKey, key.klasse)) (w.classTotals node) []
    rw [hsum]
    simp [seconds]
  simp only [flush, List.not_mem_nil, if_false]
  exact ⟨(seconds_foldl_addTo id _ _).trans (by rw [hbatch]), seconds_foldl_addTo id _ _⟩

/-- A write begins the visit, or adds to its row, or does neither. -/
theorem write_cases (w : World) (p : Ping) (i : ℕ) (existing : Option Visit) (retried firstToday : Bool) :
    (∃ phase, w.write s p i existing retried firstToday = w.setPhase i phase ∧ (phase = .waiting true ∨ phase = .over false)) ∨
    (w.row = none ∧ ∃ phase, w.write s p i existing retried firstToday =
        { w with row := some (p.create s), applied := w.applied ++ [p.now] }.setPhase i phase ∧
      (phase = .over true ∨ ∃ dayKey visits people, phase = .counted dayKey ⟨creditedSeconds p.activeSeconds FIRST_PING_WINDOW_MS 0, visits, people⟩)) ∨
    (∃ seen row phase, existing = some seen ∧ w.row = some row ∧ p.isOthers s seen = false ∧
      w.write s p i existing retried firstToday =
        { w with row := some (p.update s seen row), applied := w.applied ++ [p.now] }.setPhase i phase ∧
      (phase = .over true ∨ phase = .counted seen.dayKey ⟨p.credit seen, 0, 0⟩ ∨ p.credit seen = 0 ∧ phase = .over false)) := by
  unfold write
  cases existing with
  | none =>
      cases hrow : w.row with
      | none =>
          refine .inr (.inl ⟨rfl, _, rfl, ?_⟩)
          split
          · exact .inr ⟨_, _, _, rfl⟩
          · exact .inl rfl
      | some row =>
          cases retried with
          | false => exact .inl ⟨_, rfl, .inl rfl⟩
          | true => exact .inl ⟨_, rfl, .inr rfl⟩
  | some seen =>
      cases hothers : p.isOthers s seen with
      | true => exact .inl ⟨.over false, if_pos hothers, .inr rfl⟩
      | false =>
          simp only [hothers, Bool.false_eq_true, if_false]
          cases hrow : w.row with
          | none => exact .inl ⟨_, rfl, .inr rfl⟩
          | some row =>
              refine .inr (.inr ⟨seen, row, _, rfl, rfl, hothers, rfl, ?_⟩)
              split
              · split
                · exact .inr (.inl rfl)
                · rename_i hcredit
                  have hnonneg : 0 ≤ p.credit seen := creditedSeconds_nonneg _ _ _
                  exact .inr (.inr ⟨by omega, rfl⟩)
              · exact .inl rfl

/-- What is added to a class: nothing, or all of it under one key. -/
theorem addToClass_cases (w : World) (p : Ping) (i : ℕ) (dayKey : String) (t : Totals) (klasse : Option (String × String)) :
    (t.seconds = 0 ∧ w.addToClass p i dayKey t klasse = w.setPhase i (.over false)) ∨
    w.addToClass p i dayKey t klasse = w.setPhase i (.over true) ∨
    ∃ key, w.addToClass p i dayKey t klasse =
      { w with classTotals := Function.update w.classTotals p.node (addTo key t (w.classTotals p.node)) }.setPhase i (.over false) := by
  unfold addToClass
  by_cases hzero : t = ⟨0, 0, 0⟩
  · exact .inl ⟨by rw [hzero], if_pos hzero⟩
  · rw [if_neg hzero]
    cases klasse with
    | none => exact .inr (.inl rfl)
    | some found => exact .inr (.inr ⟨_, rfl⟩)

/-! ### What pings add to their classes -/

/-- What a ping has changed, by where it is. -/
def Measured (gained given : ℤ) : Phase → Prop
  | .waiting _ | .found .. => gained = 0 ∧ given = 0
  | .counted _ t => gained = t.seconds ∧ given = 0
  | .over unclassed => given = if unclassed then 0 else gained

def AllMeasured (w : World) : Prop := ∀ i, Measured (w.gained i) (w.given i) (w.phases i)

/-- A step of one ping leaves the others as they are. -/
theorem AllMeasured.watch {w w' : World} {i : ℕ} (hw : w.AllMeasured) (hphases : ∀ j, j ≠ i → w'.phases j = w.phases j) {node : ℕ}
    (hi : Measured (w.gained i + (w'.active - w.active)) (w.given i + (seconds (w'.classTotals node) - seconds (w.classTotals node))) (w'.phases i)) :
    (w.watch w' i node).AllMeasured := by
  intro j
  by_cases hj : j = i
  · subst hj
    simpa [World.watch] using hi
  · simpa [World.watch, Function.update_of_ne hj, hphases j hj] using hw j

theorem AllMeasured.step {w w' : World} {a : Move} (hw : w.AllMeasured) (h : w.step s pings a = some w') : w'.AllMeasured := by
  obtain ⟨w₁, hmove, hwatch⟩ := Option.map_eq_some_iff.mp h
  cases a with
  | find i =>
      simp only [move] at hmove
      split at hmove
      · rename_i retried hphase
        obtain rfl := Option.some.inj hmove
        obtain rfl := hwatch
        have hi := hw i
        rw [hphase] at hi
        refine hw.watch (fun j hj => Function.update_of_ne hj _ _) ?_
        simpa [setPhase, active, Measured] using hi
      · cases hmove
  | write i firstToday =>
      simp only [move] at hmove
      split at hmove
      · rename_i existing retried hphase
        obtain rfl := Option.some.inj hmove
        obtain rfl := hwatch
        obtain ⟨hgained, hgiven⟩ : w.gained i = 0 ∧ w.given i = 0 := by
          have hi := hw i
          rwa [hphase] at hi
        rcases write_cases (s := s) w (pings i) i existing retried firstToday with
          ⟨phase, heq, hkind⟩ | ⟨hnone, phase, heq, hkind⟩ | ⟨seen, row, phase, -, hrow, -, heq, hkind⟩
        · rw [heq]
          refine hw.watch (fun j hj => Function.update_of_ne hj _ _) ?_
          rcases hkind with rfl | rfl
          · simp [setPhase, active, Measured, hgained, hgiven]
          · simp [setPhase, active, Measured, hgained, hgiven]
        · rw [heq]
          refine hw.watch (fun j hj => Function.update_of_ne hj _ _) ?_
          rcases hkind with rfl | ⟨dayKey, visits, people, rfl⟩
          · simp [setPhase, Measured, hgiven]
          · simp [setPhase, active, Measured, hgained, hgiven, hnone, Ping.create]
        · rw [heq]
          refine hw.watch (fun j hj => Function.update_of_ne hj _ _) ?_
          rcases hkind with rfl | rfl | ⟨hzero, rfl⟩
          · simp [setPhase, Measured, hgiven]
          · simp [setPhase, active, Measured, hgained, hgiven, hrow, Ping.update]
          · simp [setPhase, active, Measured, hgained, hgiven, hrow, Ping.update, hzero]
      · cases hmove
  | addToClass i klasse =>
      simp only [move] at hmove
      split at hmove
      · rename_i dayKey t hphase
        obtain rfl := Option.some.inj hmove
        obtain rfl := hwatch
        obtain ⟨hgained, hgiven⟩ : w.gained i = t.seconds ∧ w.given i = 0 := by
          have hi := hw i
          rwa [hphase] at hi
        rcases addToClass_cases w (pings i) i dayKey t klasse with ⟨hzero, heq⟩ | heq | ⟨key, heq⟩
        · rw [heq]
          refine hw.watch (fun j hj => Function.update_of_ne hj _ _) ?_
          simp [setPhase, active, Measured, hgained, hgiven, hzero]
        · rw [heq]
          refine hw.watch (fun j hj => Function.update_of_ne hj _ _) ?_
          simp [setPhase, Measured, hgiven]
        · rw [heq]
          refine hw.watch (fun j hj => Function.update_of_ne hj _ _) ?_
          simp [setPhase, active, Measured, hgained, hgiven, seconds_addTo]
      · cases hmove
  | flush node failedDays failedSchools =>
      obtain rfl := Option.some.inj hmove
      obtain rfl := hwatch
      exact hw

theorem allMeasured_empty : empty.AllMeasured := fun _ => ⟨rfl, rfl⟩

/-! ### What the row has taken -/

/-- What a careful step does to the row. -/
theorem step_row {w w' : World} {a : Move} (hcareful : Careful s pings w a) (h : w.step s pings a = some w') :
    (w'.row = w.row ∧ w'.applied = w.applied) ∨
    (∃ p : Ping, w.row = none ∧ w'.row = some (p.create s) ∧ w'.applied = w.applied ++ [p.now]) ∨
    ∃ (p : Ping) (seen row : Visit), w.row = some row ∧ w'.row = some (p.update s seen row) ∧ w'.applied = w.applied ++ [p.now] ∧
      row.activeSeconds = seen.activeSeconds ∧ row.lastSeenAt = seen.lastSeenAt ∧ row.lastSeenAt ≤ p.now := by
  obtain ⟨w₁, hmove, hwatch⟩ := Option.map_eq_some_iff.mp h
  cases a with
  | find i =>
      simp only [move] at hmove
      split at hmove
      · obtain rfl := Option.some.inj hmove
        obtain rfl := hwatch
        exact .inl ⟨rfl, rfl⟩
      · cases hmove
  | write i firstToday =>
      simp only [move] at hmove
      split at hmove
      · rename_i existing retried hphase
        obtain rfl := Option.some.inj hmove
        obtain rfl := hwatch
        rcases write_cases (s := s) w (pings i) i existing retried firstToday with
          ⟨phase, heq, -⟩ | ⟨hnone, phase, heq, -⟩ | ⟨seen, row, phase, rfl, hrow, hown, heq, -⟩
        · rw [heq]
          exact .inl ⟨rfl, rfl⟩
        · rw [heq]
          exact .inr (.inl ⟨pings i, hnone, rfl, rfl⟩)
        · rw [heq]
          obtain ⟨hactive, hseen, hnow⟩ := hcareful seen (by rw [hphase]; rfl) row hrow hown
          exact .inr (.inr ⟨pings i, seen, row, hrow, rfl, rfl, hactive, hseen, hnow⟩)
      · cases hmove
  | addToClass i klasse =>
      simp only [move] at hmove
      split at hmove
      · rename_i dayKey t hphase
        obtain rfl := Option.some.inj hmove
        obtain rfl := hwatch
        rcases addToClass_cases w (pings i) i dayKey t klasse with ⟨-, heq⟩ | heq | ⟨key, heq⟩
        · rw [heq]
          exact .inl ⟨rfl, rfl⟩
        · rw [heq]
          exact .inl ⟨rfl, rfl⟩
        · rw [heq]
          exact .inl ⟨rfl, rfl⟩
      · cases hmove
  | flush node failedDays failedSchools =>
      obtain rfl := Option.some.inj hmove
      obtain rfl := hwatch
      exact .inl ⟨rfl, rfl⟩

/-- The row was seen last at its latest ping, and holds no more than the time until then. -/
structure Counted (w : World) : Prop where
  begun : w.row = none → w.applied = []
  positive : ∀ row ∈ w.row, 0 ≤ row.activeSeconds
  capped : ∀ row ∈ w.row, row.activeSeconds ≤ MAX_SESSION_SECONDS
  bounded : ∀ row ∈ w.row, 1000 * row.activeSeconds ≤ (row.lastSeenAt - row.startedAt) + FIRST_PING_WINDOW_MS + 5000 * w.applied.length
  latest : ∀ row ∈ w.row, w.Latest row.lastSeenAt

theorem counted_empty : empty.Counted where
  begun _ := rfl
  positive _ h := by cases h
  capped _ h := by cases h
  bounded _ h := by cases h
  latest _ h := by cases h

theorem Counted.step {w w' : World} {a : Move} (hw : w.Counted) (hcareful : Careful s pings w a) (h : w.step s pings a = some w') : w'.Counted := by
  rcases step_row hcareful h with ⟨hrow, happlied⟩ | ⟨p, hnone, hrow, happlied⟩ | ⟨p, seen, row, hold, hrow, happlied, hactive, hseen, hnow⟩
  · refine ⟨?_, ?_, ?_, ?_, ?_⟩
    · rw [hrow, happlied]
      exact hw.begun
    · rw [hrow]
      exact hw.positive
    · rw [hrow]
      exact hw.capped
    · rw [hrow, happlied]
      exact hw.bounded
    · simp only [hrow, Latest, happlied]
      exact hw.latest
  · -- the first ping: its window and five seconds
    have hclock := creditedSeconds_le_clock p.activeSeconds FIRST_PING_WINDOW_MS 0
    have hroom := creditedSeconds_le_room p.activeSeconds FIRST_PING_WINDOW_MS 0
    have hnonneg := creditedSeconds_nonneg p.activeSeconds FIRST_PING_WINDOW_MS 0
    rw [hw.begun hnone, List.nil_append] at happlied
    have hmax : max 0 (MAX_SESSION_SECONDS - max 0 0) = MAX_SESSION_SECONDS := by decide
    have hwindow : max 0 FIRST_PING_WINDOW_MS = FIRST_PING_WINDOW_MS := by decide
    rw [hmax] at hroom
    rw [hwindow] at hclock
    refine ⟨fun hno => ?_, ?_, ?_, ?_, ?_⟩
    · rw [hrow] at hno
      cases hno
    all_goals
      intro r hr
      rw [hrow] at hr
      obtain rfl := Option.some.inj hr
    · exact hnonneg
    · exact hroom
    · rw [happlied]
      simp only [Ping.create, List.length_singleton]
      omega
    · rw [Latest, happlied]
      exact ⟨List.mem_singleton_self _, fun t ht => (List.mem_singleton.mp ht).le⟩
  · have hpositive := hw.positive row hold
    have hcapped := hw.capped row hold
    have hbounded := hw.bounded row hold
    have hlatest := hw.latest row hold
    have hclock := creditedSeconds_le_clock p.activeSeconds (p.now - seen.lastSeenAt) seen.activeSeconds
    have hroom := creditedSeconds_le_room p.activeSeconds (p.now - seen.lastSeenAt) seen.activeSeconds
    have hnonneg := creditedSeconds_nonneg p.activeSeconds (p.now - seen.lastSeenAt) seen.activeSeconds
    rw [← hseen, ← hactive] at hclock hroom hnonneg
    rw [max_eq_right (by omega)] at hclock
    rw [max_eq_right hpositive, max_eq_right (by omega)] at hroom
    refine ⟨fun hno => ?_, ?_, ?_, ?_, ?_⟩
    · rw [hrow] at hno
      cases hno
    all_goals
      intro r hr
      rw [hrow] at hr
      obtain rfl := Option.some.inj hr
      simp only [Ping.update, Ping.credit, ← hseen, ← hactive]
    · omega
    · omega
    · rw [happlied, List.length_append, List.length_singleton]
      push_cast
      omega
    · rw [Latest, happlied]
      refine ⟨List.mem_append_right _ (List.mem_singleton_self _), fun t ht => ?_⟩
      rcases List.mem_append.mp ht with ht | ht
      · exact (hlatest.2 t ht).trans hnow
      · exact (List.mem_singleton.mp ht).le

/-- The row was last seen no earlier than it was. -/
def Later (w w' : World) : Prop := ∀ row ∈ w.row, ∃ row' ∈ w'.row, row.lastSeenAt ≤ row'.lastSeenAt

theorem Later.step {w w₁ w₂ : World} {a : Move} (hw : w.Later w₁) (hcareful : Careful s pings w₁ a) (h : w₁.step s pings a = some w₂) :
    w.Later w₂ := by
  intro row hold
  obtain ⟨row₁, h₁, hle⟩ := hw row hold
  rcases step_row hcareful h with ⟨hrow, -⟩ | ⟨p, hnone, -, -⟩ | ⟨p, seen, row₂, hrow₁, hrow, -, -, -, hnow⟩
  · exact ⟨row₁, hrow ▸ h₁, hle⟩
  · rw [hnone] at h₁
    cases h₁
  · obtain rfl := Option.some.inj (hrow₁.symm.trans h₁)
    exact ⟨_, hrow, hle.trans hnow⟩

end World

/-- **Usage time is counted once**: in a run in which every ping writes the row as it has read it, and no earlier than it was seen, what is stored
is bounded by the time until the latest ping and by the cap, the visit is never seen earlier than before, and a ping adds to the totals of its
sender's class what it has added to the visit. -/
theorem usage_counted_once {s : Services} {pings : ℕ → Ping} {as : List Move} {w : World}
    (hcareful : Meets (World.step s pings) (World.Careful s pings) World.empty as) (h : run (World.step s pings) World.empty as = some w) :
    w.CountedOnce ∧ ∀ pre post w₀, as = pre ++ post → run (World.step s pings) World.empty pre = some w₀ → w₀.Later w := by
  have hcounted := run_invariant_of_meets (fun _ _ _ hw hok hstep => World.Counted.step hw hok hstep) World.counted_empty hcareful h
  have hmeasured := run_invariant (fun _ _ _ hw hstep => World.AllMeasured.step hw hstep) World.allMeasured_empty h
  refine ⟨⟨hcounted.capped, fun row hrow t ht => ?_, fun i unclassed hover => ?_⟩, ?_⟩
  · have hlast := ht.2 _ (hcounted.latest row hrow).1
    have hbounded := hcounted.bounded row hrow
    omega
  · have hi := hmeasured i
    rwa [hover] at hi
  · rintro pre post w₀ rfl hpre
    rw [run_append, hpre, Option.bind_some] at h
    have hrest : Meets (World.step s pings) (World.Careful s pings) w₀ post := hcareful.right hpre
    exact run_invariant_of_meets (fun _ _ _ hw hok hstep => World.Later.step hw hok hstep) (fun row hrow => ⟨row, hrow, le_refl _⟩) hrest h

/-- A visitor's key that names the account, on one day. -/
def oneDay : Services := ⟨fun account day => account ++ day, fun _ => "2026-01-12"⟩

/-- The first ping at the start of the visit, the others almost five minutes later. -/
def minutesLater (i : ℕ) : Ping :=
  if i = 0 then ⟨60, 1, some "anna", false, 0, 0⟩ else ⟨300, 1, some "anna", false, 295000, 0⟩

/-- A visit of two pings, one after the other. -/
def twoPings : List Move := [.find 0, .write 0 true, .addToClass 0 (some ("3A", "school")), .find 1, .write 1 false, .addToClass 1 none]

def afterTwo : World := (run (World.step oneDay minutesLater) World.empty twoPings).getD World.empty

theorem twoPings_counted : afterTwo.CountedOnce := by
  have hcareful : Meets (World.step oneDay minutesLater) (World.Careful oneDay minutesLater) World.empty twoPings := by decide +kernel
  have hsome : (run (World.step oneDay minutesLater) World.empty twoPings).isSome = true := by decide +kernel
  have hrun : run (World.step oneDay minutesLater) World.empty twoPings = some afterTwo := run_eq_getD hsome _
  exact (usage_counted_once hcareful hrun).1

/-- Two pings of one moment that both read the row before either writes it. -/
def racing : List Move := [.find 0, .write 0 true, .find 1, .find 2, .write 1 false, .write 2 false]

def afterRace : World := (run (World.step oneDay minutesLater) World.empty racing).getD World.empty

/-- Both are credited with the same five minutes: 660 seconds are stored of a visit that has lasted for 295. -/
theorem race_counted_twice : ¬ ∀ (s : Services) (pings : ℕ → Ping) (as : List Move) (w : World),
    run (World.step s pings) World.empty as = some w → w.CountedOnce := by
  intro hall
  have hrow : (afterRace.row.map fun row => (row.activeSeconds, row.startedAt)) = some (660, 0) ∧ afterRace.applied = [0, 295000, 295000] := by
    decide +kernel
  obtain ⟨row, hrow', heq⟩ := Option.map_eq_some_iff.mp hrow.1
  obtain ⟨hactive, hstart⟩ := Prod.mk.inj heq
  have hlatest : afterRace.Latest 295000 := by
    rw [World.Latest, hrow.2]
    decide
  have hsome : (run (World.step oneDay minutesLater) World.empty racing).isSome = true := by decide +kernel
  have hrun : run (World.step oneDay minutesLater) World.empty racing = some afterRace := run_eq_getD hsome _
  have hbounded := (hall oneDay minutesLater racing afterRace hrun).bounded row hrow' 295000 hlatest
  rw [hactive, hstart, hrow.2] at hbounded
  exact absurd hbounded (by decide)

end Pokyh.Account.Usage

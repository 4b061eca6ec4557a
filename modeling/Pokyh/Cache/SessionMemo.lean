import Pokyh.Lib.Runs
import Pokyh.Lib.Tables

/-!
# Cache — SessionMemo

What the requests of a WebUntis session keep needing (`webuntis/memo.ts`), looked up once and kept for a while: calls, loads that end at any
time, and any clock.

* `Memo.perform`: a call and its answer, or one of the two callbacks behind a load.
* `Answer.Fine`: an answer is not up, is of no load that began before the key was last kept or forgotten, and begins no second load.
* `Careful`: a call that does not undo what another relies on.

A kept value remembers the load that found it, and the memo how many loads had begun when a key was last kept or forgotten; nothing reads
these but the statements.
-/

namespace Pokyh.Cache.SessionMemo
open Pokyh.Lib

/-- Milliseconds. -/
abbrev Time := ℤ

structure Kept (V : Type) where
  value : V
  ends : Time
  load : Option ℕ
  deriving DecidableEq, Repr

structure Entry (K V : Type) where
  kept : K → Option (Kept V)
  loading : K → Option ℕ
  touched : Time

/-- A load: running, between its two callbacks (with the time its value has, if any), or through with both. -/
inductive Stage where
  | running
  | settled (ends : Option Time)
  | over
  deriving DecidableEq, Repr

/-- What a call of `get` has in hand. -/
structure Load (S K : Type) where
  session : S
  key : K
  entry : ℕ
  stage : Stage

structure Options where
  maxSessions : ℕ
  idleMs : Time

/-- The memo.  A session that is dropped leaves its entry to the loads that began in it. -/
structure Memo (S K V : Type) where
  sessions : Table S ℕ
  entries : ℕ → Entry K V
  made : ℕ
  loads : ℕ → Option (Load S K)
  begun : ℕ
  changed : S × K → ℕ
  forgotten : S × K → ℕ

inductive Move (S K V : Type) where
  | peek (session : S) (key : K) (t now : Time)
  | keep (session : S) (key : K) (value : V) (ttlMs t now : Time)
  | get (session : S) (key : K) (t now : Time)
  | forget (session : S) (key : K)
  | forgetSession (session : S)
  | found (load : ℕ) (value : V) (ttlMs now : Time)
  | failed (load : ℕ)
  | cleared (load : ℕ)

inductive Answer (V : Type) where
  | nothing
  | value (kept : Kept V)
  /-- The promise of a load under way. -/
  | joined (load : ℕ)
  | begun (load : ℕ)
  deriving DecidableEq, Repr

variable {S K V : Type} [DecidableEq S] [DecidableEq K]

namespace Memo

def empty : Memo S K V := ⟨∅, fun _ => ⟨fun _ => none, fun _ => none, 0⟩, 0, fun _ => none, 0, fun _ => 0, fun _ => 0⟩

/-! ### Entries -/

def setEntry (m : Memo S K V) (e : ℕ) (f : Entry K V → Entry K V) : Memo S K V :=
  { m with entries := Function.update m.entries e (f (m.entries e)) }

def setKept (m : Memo S K V) (e : ℕ) (k : K) (kept : Option (Kept V)) : Memo S K V :=
  m.setEntry e fun entry => { entry with kept := Function.update entry.kept k kept }

def setLoading (m : Memo S K V) (e : ℕ) (k : K) (load : Option ℕ) : Memo S K V :=
  m.setEntry e fun entry => { entry with loading := Function.update entry.loading k load }

def setStage (m : Memo S K V) (n : ℕ) (l : Load S K) (stage : Stage) : Memo S K V :=
  { m with loads := Function.update m.loads n (some { l with stage := stage }) }

/-- The sessions without the idle ones, when there are too many. -/
def evicted (m : Memo S K V) (o : Options) (t : Time) : Table S ℕ :=
  if m.sessions.entries.length > o.maxSessions then m.sessions.keep fun _ e => !(t - (m.entries e).touched > o.idleMs : Bool) else m.sessions

def evict (m : Memo S K V) (o : Options) (t : Time) : Memo S K V := { m with sessions := m.evicted o t }

def touch (m : Memo S K V) (e : ℕ) (t : Time) : Memo S K V := m.setEntry e fun entry => { entry with touched := t }

def create (m : Memo S K V) (s : S) (t : Time) : Memo S K V :=
  { m with
    sessions := m.sessions.insert s m.made
    entries := Function.update m.entries m.made ⟨fun _ => none, fun _ => none, t⟩
    made := m.made + 1 }

def entry (m : Memo S K V) (o : Options) (s : S) (t : Time) : Memo S K V × ℕ :=
  match (m.evict o t).sessions.lookup s with
  | some e => ((m.evict o t).touch e t, e)
  | none => ((m.evict o t).create s t, m.made)

def fresh (m : Memo S K V) (e : ℕ) (k : K) (now : Time) : Memo S K V × Option (Kept V) :=
  match (m.entries e).kept k with
  | some kept => if kept.ends > now then (m, some kept) else (m.setKept e k none, none)
  | none => (m, none)

/-! ### Calls and callbacks -/

/-- The key has been kept or forgotten. -/
def change (m : Memo S K V) (s : S) (k : K) : Memo S K V := { m with changed := Function.update m.changed (s, k) m.begun }

def begin (m : Memo S K V) (s : S) (k : K) (e : ℕ) : Memo S K V :=
  { m.setLoading e k (some m.begun) with
    loads := Function.update m.loads m.begun (some ⟨s, k, e, .running⟩)
    begun := m.begun + 1 }

def forget (m : Memo S K V) (s : S) (k : K) : Memo S K V :=
  let m := match m.sessions.lookup s with
    | some e => (m.setKept e k none).setLoading e k none
    | none => m
  { m.change s k with forgotten := Function.update m.forgotten (s, k) m.begun }

def forgetSession (m : Memo S K V) (s : S) : Memo S K V :=
  { m with
    sessions := m.sessions.erase s
    changed := fun p => if p.1 = s then m.begun else m.changed p
    forgotten := fun p => if p.1 = s then m.begun else m.forgotten p }

/-- The callback of a load that found a value. -/
def found (m : Memo S K V) (n : ℕ) (l : Load S K) (value : V) (ttlMs now : Time) : Memo S K V :=
  let kept := if (m.entries l.entry).loading l.key = some n ∧ ttlMs > 0 then m.setKept l.entry l.key (some ⟨value, now + ttlMs, some n⟩) else m
  kept.setStage n l (.settled (if ttlMs > 0 then some (now + ttlMs) else none))

/-- The last callback of a load. -/
def cleared (m : Memo S K V) (n : ℕ) (l : Load S K) : Memo S K V :=
  (if (m.entries l.entry).loading l.key = some n then m.setLoading l.entry l.key none else m).setStage n l .over

def perform (o : Options) (m : Memo S K V) : Move S K V → Option (Memo S K V × Answer V)
  | .peek s k t now =>
    let (m, e) := m.entry o s t
    let (m, kept) := m.fresh e k now
    some (m, kept.elim .nothing .value)
  | .keep s k value ttlMs t now =>
    if ttlMs > 0 then
      let (m, e) := m.entry o s t
      some ((m.setKept e k (some ⟨value, now + ttlMs, none⟩)).change s k, .nothing)
    else some (m.change s k, .nothing)
  | .get s k t now =>
    let (m, e) := m.entry o s t
    match m.fresh e k now with
    | (m, some kept) => some (m, .value kept)
    | (m, none) =>
      match (m.entries e).loading k with
      | some n => some (m, .joined n)
      | none => some (m.begin s k e, .begun m.begun)
  | .forget s k => some (m.forget s k, .nothing)
  | .forgetSession s => some (m.forgetSession s, .nothing)
  | .found n value ttlMs now =>
    match m.loads n with
    | some l => if l.stage = .running then some (m.found n l value ttlMs now, .nothing) else none
    | none => none
  | .failed n =>
    match m.loads n with
    | some l => if l.stage = .running then some (m.setStage n l (.settled none), .nothing) else none
    | none => none
  | .cleared n =>
    match m.loads n with
    | some l => if l.stage ≠ .running ∧ l.stage ≠ .over then some (m.cleared n l, .nothing) else none
    | none => none

def step (o : Options) (m : Memo S K V) (a : Move S K V) : Option (Memo S K V) := (m.perform o a).map (·.1)

end Memo

/-! ### What is asked of it -/

def Stage.ends : Stage → Option Time
  | .settled ends => ends
  | _ => none

/-- What an answer for a key must be, in the memo that is asked. -/
def Answer.Fine (m : Memo S K V) (s : S) (k : K) (now : Time) : Answer V → Prop
  | .nothing => True
  | .value kept => now < kept.ends ∧ ∀ n ∈ kept.load, m.changed (s, k) ≤ n
  | .joined n => m.changed (s, k) ≤ n ∧ ∀ l ∈ m.loads n, ∀ ends ∈ l.stage.ends, now < ends
  | .begun n => ∀ i < n, ∀ l ∈ m.loads i, l.stage = .running → l.session = s → l.key = k → i < m.forgotten (s, k)

/-- What is asked of the answer to a move. -/
def Move.Fine (m : Memo S K V) (answer : Answer V) : Move S K V → Prop
  | .peek s k _ now | .get s k _ now => answer.Fine m s k now
  | _ => True

/-! ### Careful calls -/

namespace Memo

/-- A key is kept from this load when it ends. -/
def Shares (m : Memo S K V) (n : ℕ) (l : Load S K) : Prop :=
  m.sessions.lookup l.session = some l.entry ∧ (m.entries l.entry).loading l.key = some n

/-- No session is dropped while a load of it is running. -/
def Holds (m : Memo S K V) (o : Options) (t : Time) : Prop :=
  ∀ n < m.begun, ∀ l ∈ m.loads n, l.stage = .running → m.Shares n l → (m.evicted o t).lookup l.session = some l.entry

/-- No load of the key is under way. -/
def Settled (m : Memo S K V) (s : S) (k : K) : Prop := ∀ e ∈ m.sessions.lookup s, (m.entries e).loading k = none

/-- What is kept under the key was not found by a load. -/
def Unloaded (m : Memo S K V) (s : S) (k : K) : Prop := ∀ e ∈ m.sessions.lookup s, ∀ kept ∈ (m.entries e).kept k, kept.load = none

/-- A load of the key that has found its value has not found it too long ago. -/
def InTime (m : Memo S K V) (s : S) (k : K) (now : Time) : Prop :=
  ∀ e ∈ m.sessions.lookup s, ∀ n ∈ (m.entries e).loading k, ∀ l ∈ m.loads n, ∀ ends ∈ l.stage.ends, now < ends

section Decidable
variable (m : Memo S K V) (o : Options) (s : S) (k : K) (t now : Time)

instance (n : ℕ) (l : Load S K) : Decidable (m.Shares n l) := inferInstanceAs (Decidable (_ ∧ _))

instance : Decidable (m.Holds o t) :=
  inferInstanceAs (Decidable (∀ n < m.begun, ∀ l ∈ m.loads n, l.stage = .running → m.Shares n l → (m.evicted o t).lookup l.session = some l.entry))

instance : Decidable (m.Settled s k) := inferInstanceAs (Decidable (∀ e ∈ m.sessions.lookup s, (m.entries e).loading k = none))

instance : Decidable (m.Unloaded s k) :=
  inferInstanceAs (Decidable (∀ e ∈ m.sessions.lookup s, ∀ kept ∈ (m.entries e).kept k, kept.load = none))

instance : Decidable (m.InTime s k now) :=
  inferInstanceAs (Decidable (∀ e ∈ m.sessions.lookup s, ∀ n ∈ (m.entries e).loading k, ∀ l ∈ m.loads n, ∀ ends ∈ l.stage.ends, now < ends))

end Decidable

end Memo

/-- A call that does not undo what another relies on. -/
def Careful (o : Options) (m : Memo S K V) : Move S K V → Prop
  | .peek _ _ t _ => m.Holds o t
  | .keep s k _ ttlMs t _ => m.Settled s k ∧ (if ttlMs > 0 then m.Holds o t else m.Unloaded s k)
  | .get s k t now => m.Holds o t ∧ m.InTime s k now
  | _ => True

instance (o : Options) (m : Memo S K V) (a : Move S K V) : Decidable (Careful o m a) :=
  match a with
  | .peek _ _ t _ => inferInstanceAs (Decidable (m.Holds o t))
  | .keep s k _ ttlMs t _ => inferInstanceAs (Decidable (m.Settled s k ∧ if ttlMs > 0 then m.Holds o t else m.Unloaded s k))
  | .get s k t now => inferInstanceAs (Decidable (m.Holds o t ∧ m.InTime s k now))
  | .forget .. | .forgetSession .. | .found .. | .failed .. | .cleared .. => .isTrue trivial

end Pokyh.Cache.SessionMemo

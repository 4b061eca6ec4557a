import Pokyh.Lib.Versions

/-!
# Cache — Store

The read cache that every process shares (`services/cache.ts`) and the hook of the client that keeps it fresh (`db.ts`),
each split at its awaits.

* `World.goOn`, `World.fail`: the next step of a `cached()` call, of a write of its answer or of an invalidation; every
  `redis()` in them gives the connection, or the process's own memory.
* `World.invalidate`: a version is raised in memory at once, in Redis when it can be reached.
* `Answered.Fresh`: **the answer of a `cached()` call is no older than the writes that were acknowledged before it.**

A version remembers when it was reached, an entry when its answer began to be loaded, and a call which writes had been
acknowledged in its process when it began; nothing reads these but the statements.
-/

namespace Pokyh.Cache
open Pokyh.Lib

/-! ### Models, answers and keys -/

/-- The models of the schema: those of `CACHE_TABLES`, and the others. -/
inductive Model where
  | dish
  | dishImage
  | mensaMenu
  | mensaMenuSchool
  | schoolHolidays
  | dishRating
  | dishComment
  | comment
  | reminder
  | todo
  | subjectImage
  | popup
  | popupTargetUser
  | popupTargetClass
  | recap
  | recapTargetSchool
  | recapTargetClass
  | recapTargetUser
  | other (name : String)
  deriving DecidableEq, Repr

def isCacheTable : Model → Bool
  | .other _ => false
  | _ => true

/-- What has a version. -/
inductive Table where
  | all
  | model (m : Model)
  deriving DecidableEq, Repr

/-- The answers that are read through `cached()`. -/
inductive Answer where
  | popups
  | dishes
  | reminders
  | dishComments
  | todos
  | reminderComments
  | dishRatings
  | dishRatingsBatch
  | subjectImages
  | recaps
  deriving DecidableEq, Repr

def Answer.tables : Answer → List Model
  | .popups => [.popup, .popupTargetUser, .popupTargetClass]
  | .dishes => [.dish, .dishImage, .mensaMenu, .mensaMenuSchool, .schoolHolidays]
  | .reminders => [.reminder]
  | .dishComments => [.dishComment, .dishRating]
  | .todos => [.todo]
  | .reminderComments => [.comment]
  | .dishRatings | .dishRatingsBatch => [.dishRating]
  | .subjectImages => [.subjectImage]
  | .recaps => [.recap, .recapTargetSchool, .recapTargetClass, .recapTargetUser]

/-- No answer names a table that `CACHE_TABLES` lacks. -/
theorem Answer.isCacheTable_of_mem {a : Answer} {m : Model} (h : m ∈ a.tables) : isCacheTable m = true := by
  cases m with
  | other name => cases a <;> simp [Answer.tables] at h
  | _ => rfl

/-- The name of an answer: what it is, and of whom. -/
structure Name where
  answer : Answer
  of : String
  deriving DecidableEq, Repr

/-- The tables whose versions are in the key of an answer. -/
def Name.names (name : Name) : List Table := .all :: name.answer.tables.eraseDups.map .model

inductive Store where
  | redis
  | memory
  deriving DecidableEq, Repr

/-- The key of an answer. It does not say where its versions were read (`source`). -/
structure Key where
  name : Name
  versions : List ℕ
  source : Store
  deriving DecidableEq, Repr

/-- An answer that is kept, and when it began to be loaded. -/
structure Entry where
  name : Name
  versions : List ℕ
  began : ℕ
  deriving DecidableEq, Repr

def Entry.isAt (e : Entry) (key : Key) : Bool := e.name = key.name && e.versions = key.versions

def Key.entry (key : Key) (began : ℕ) : Entry := ⟨key.name, key.versions, began⟩

/-! ### Writes -/

/-- A write, by the models that it changes; a raw statement's may be unknown. -/
inductive Operation where
  | model (touched : List Model)
  | raw (written : Option (List Model))
  deriving DecidableEq, Repr

/-- What the hook invalidates: `none` for everything. -/
def Operation.models : Operation → Option (List Model)
  | .model touched => some (touched.filter isCacheTable)
  | .raw written => written

def namesOf : Option (List Model) → List Table
  | none => [.all]
  | some models => models.eraseDups.map .model

/-- The tables whose rows are not what they were. -/
def Operation.changes : Operation → List Table
  | .model touched => touched.map .model
  | .raw none => [.all]
  | .raw (some written) => written.map .model

/-- A write that a process makes, and when. -/
structure Statement where
  process : ℕ
  operation : Operation
  inTransaction : Bool
  executedAt : ℕ
  deriving DecidableEq, Repr

structure Write where
  statement : Statement
  committedAt : Option ℕ
  /-- The invalidation of the hook has resolved. -/
  invalidated : Bool
  deriving DecidableEq, Repr

structure Invalidation where
  process : ℕ
  names : List Table
  began : ℕ
  /-- The write whose hook it is of; none when it settles earlier ones. -/
  statement : Option Statement
  deriving DecidableEq, Repr

/-! ### Processes -/

inductive Connection where
  /-- No client; for a while after a failure none is sought. -/
  | off (waiting : Bool)
  | attempting
  /-- The version of everything is about to be raised. -/
  | raising
  | raised
  | on
  deriving DecidableEq, Repr

structure Process where
  connection : Connection
  staleAfterReconnect : Bool
  /-- Oldest first. -/
  memory : List Entry
  memoryVersions : Versions Table
  settling : List Model
  settleEverything : Bool
  /-- The invalidations that have resolved: what they named, and when they began. -/
  resolved : List (List Table × ℕ)
  /-- One of them has resolved without Redis since Redis was last connected. -/
  missed : Bool

def Process.started : Process := ⟨.off false, false, [], .zero, [], false, [], false⟩

/-- What `redis()` gives; none while it is awaited. -/
def Process.redis (q : Process) : Option Store :=
  match q.connection with
  | .on => some .redis
  | .off true => some .memory
  | _ => none

/-- `client = null`. -/
def Connection.drop : Connection → Connection
  | .on => .off false
  | c => c

/-- Redis is connected. -/
def Process.connect (q : Process) : Process := { q with connection := .on, memory := [], missed := false }

/-- `rememberInMemory`: the oldest entries make room. -/
def remember (memoryEntries : ℕ) (memory : List Entry) (key : Key) (began : ℕ) : List Entry :=
  if memoryEntries = 0 then memory
  else
    let kept := memory.drop (memory.length + 1 - memoryEntries)
    if kept.any (·.isAt key) then kept.map fun e => if e.isAt key then key.entry began else e
    else kept ++ [key.entry began]

/-! ### Steps -/

/-- What goes on between two awaits; a call carries the changes it must not miss (`seen`). -/
inductive Task where
  | currentVersions (p : ℕ) (name : Name) (seen : List (Table × ℕ))
  | mGet (p : ℕ) (name : Name) (seen : List (Table × ℕ))
  | read (p : ℕ) (key : Key) (seen : List (Table × ℕ))
  | get (p : ℕ) (key : Key) (seen : List (Table × ℕ))
  | load (p : ℕ) (name : Name) (key : Option Key) (seen : List (Table × ℕ)) (began : ℕ)
  | write (p : ℕ) (key : Key) (began : ℕ)
  | set (p : ℕ) (key : Key) (began : ℕ)
  | hook (s : Statement)
  | invalidateTables (i : Invalidation)
  | incr (i : Invalidation) (names : List Table)
  deriving DecidableEq, Repr

/-- What a `cached()` call gives: an answer that began to be loaded then. -/
structure Answered where
  process : ℕ
  name : Name
  seen : List (Table × ℕ)
  began : ℕ
  deriving DecidableEq, Repr

structure World where
  processes : ℕ → Process
  /-- What Redis holds. -/
  entries : List Entry
  versions : Versions Table
  /-- Sent over a connection that has failed, and not arrived. -/
  stray : List Table
  tasks : List Task
  writes : List Write
  log : List Answered
  clock : ℕ

def World.started : World := ⟨fun _ => .started, [], .zero, [], [], [], [], 0⟩

variable (memoryEntries : ℕ)

def World.next (w : World) (t : Task) : World := { w with tasks := t :: w.tasks }

def World.update (w : World) (p : ℕ) (q : Process) : World := { w with processes := Function.update w.processes p q }

def World.answer (w : World) (p : ℕ) (name : Name) (seen : List (Table × ℕ)) (began : ℕ) : World :=
  { w with log := ⟨p, name, seen, began⟩ :: w.log }

/-- The changes of the process that are committed, and their hook's invalidation resolved. -/
def World.seen (w : World) (p : ℕ) : List (Table × ℕ) :=
  w.writes.flatMap fun wr =>
    if wr.invalidated && wr.statement.process = p then
      wr.committedAt.elim [] fun c => wr.statement.operation.changes.map (·, c)
    else []

def World.found (w : World) (p : ℕ) (key : Key) (seen : List (Table × ℕ)) : Option Entry → World
  | some e => w.answer p key.name seen e.began
  | none => w.next (.load p key.name (some key) seen w.clock)

/-- `invalidateTables`, and `invalidateAllCaches` for everything, up to their first await. -/
def World.invalidate (w : World) (p : ℕ) (s : Option Statement) (models : Option (List Model)) : World :=
  let q := w.processes p
  let names := namesOf models
  (w.update p { q with
    memory := if models.isNone then [] else q.memory
    memoryVersions := q.memoryVersions.raiseAll w.clock names }).next (.invalidateTables ⟨p, names, w.clock, s⟩)

/-- Its tables are to be invalidated once more. -/
def Process.settleLater (q : Process) : Option (List Model) → Process
  | none => { q with settleEverything := true }
  | some models => { q with settling := q.settling ++ models }

/-- The invalidation resolves, and the hook goes on. -/
def World.resolve (w : World) (i : Invalidation) (q : Process) : World :=
  let q := { q with resolved := (i.names, i.began) :: q.resolved }
  match i.statement with
  | none => w.update i.process q
  | some s =>
      { w.update i.process (q.settleLater s.operation.models) with
        writes := w.writes.map fun wr => if wr.statement = s then { wr with invalidated := true } else wr }

/-- The next step, unless it waits for Redis to be connected. -/
def World.goOn (w : World) : Task → Option World
  | .currentVersions p name seen =>
      (w.processes p).redis.map fun
        | .redis => w.next (.mGet p name seen)
        | .memory => w.next (.read p ⟨name, (w.processes p).memoryVersions.current name.names, .memory⟩ seen)
  | .mGet p name seen => some (w.next (.read p ⟨name, w.versions.current name.names, .redis⟩ seen))
  | .read p key seen =>
      (w.processes p).redis.map fun
        | .redis => w.next (.get p key seen)
        | .memory => w.found p key seen ((w.processes p).memory.find? (·.isAt key))
  | .get p key seen => some (w.found p key seen (w.entries.find? (·.isAt key)))
  | .load p name key seen began =>
      -- the answer goes out while it is being kept
      some (key.elim (w.answer p name seen began) fun key => (w.answer p name seen began).next (.write p key began))
  | .write p key began =>
      (w.processes p).redis.map fun
        | .redis => w.next (.set p key began)
        | .memory =>
            let q := w.processes p
            w.update p { q with memory := remember memoryEntries q.memory key began }
  | .set _ key began => some { w with entries := key.entry began :: w.entries.filter (!·.isAt key) }
  | .hook s =>
      match s.operation.models with
      | some [] => some w
      | models => some (w.invalidate s.process (some s) models)
  | .invalidateTables i =>
      (w.processes i.process).redis.map fun
        | .redis => w.next (.incr i i.names)
        -- nothing remembers here that Redis still has the old versions
        | .memory => w.resolve i { w.processes i.process with missed := true }
  | .incr i [] => some (w.resolve i (w.processes i.process))
  | .incr i (t :: names) => some ({ w with versions := w.versions.raise w.clock t }.next (.incr i names))

/-- Redis, or what is loaded, fails. -/
def World.fail (w : World) : Task → World
  | .mGet p name seen => w.next (.load p name none seen w.clock)
  | .get p key seen => w.next (.load p key.name none seen w.clock)
  | .incr i names =>
      let q := w.processes i.process
      { w with stray := names ++ w.stray }.resolve i
        { q with staleAfterReconnect := true, connection := q.connection.drop }
  | _ => w

/-- Whether a step of it can fail. -/
def Task.canFail : Task → Bool
  | .mGet .. | .get .. | .load .. | .set .. | .incr .. => true
  | _ => false

inductive Move where
  | begin (p : ℕ) (name : Name)
  | goOn (t : Task)
  | fail (t : Task)
  /-- A process writes; within a transaction nobody else sees it yet. -/
  | execute (p : ℕ) (operation : Operation) (inTransaction : Bool)
  | commit (s : Statement)
  | settle (p : ℕ)
  | connect (p : ℕ)
  | connected (p : ℕ)
  | raise (p : ℕ)
  | ready (p : ℕ)
  /-- The connection is lost, or not made. -/
  | lose (p : ℕ)
  /-- `RETRY_AFTER_FAILURE_MS` have passed. -/
  | elapse (p : ℕ)
  | arrive (t : Table)
  /-- An entry outlives its time, or gives way to others. -/
  | expire (e : Entry)
  | expireInMemory (p : ℕ) (e : Entry)
  deriving DecidableEq, Repr

def World.act (w : World) : Move → Option World
  | .begin p name => some (w.next (.currentVersions p name (w.seen p)))
  | .goOn t => if t ∈ w.tasks then { w with tasks := w.tasks.erase t }.goOn memoryEntries t else none
  | .fail t => if t ∈ w.tasks && t.canFail then some ({ w with tasks := w.tasks.erase t }.fail t) else none
  | .execute p operation inTransaction =>
      let s : Statement := ⟨p, operation, inTransaction, w.clock⟩
      some ({ w with writes := ⟨s, if inTransaction then none else some w.clock, false⟩ :: w.writes }.next (.hook s))
  | .commit s =>
      some { w with
        writes := w.writes.map fun wr =>
          if wr.statement = s && wr.committedAt.isNone then { wr with committedAt := some w.clock } else wr }
  | .settle p =>
      let q := w.processes p
      if q.settleEverything || !q.settling.isEmpty then
        some ((w.update p { q with settling := [], settleEverything := false }).invalidate p none
          (if q.settleEverything then none else some q.settling))
      else none
  | .connect p =>
      let q := w.processes p
      if q.connection = .off false then some (w.update p { q with connection := .attempting }) else none
  | .connected p =>
      let q := w.processes p
      if q.connection = .attempting then
        some (w.update p (if q.staleAfterReconnect then { q with connection := .raising } else q.connect))
      else none
  | .raise p =>
      let q := w.processes p
      if q.connection = .raising then
        some ({ w with versions := w.versions.raise w.clock .all }.update p { q with connection := .raised })
      else none
  | .ready p =>
      let q := w.processes p
      if q.connection = .raised then some (w.update p { q.connect with staleAfterReconnect := false }) else none
  | .lose p => some (w.update p { w.processes p with connection := .off true })
  | .elapse p =>
      let q := w.processes p
      if q.connection = .off true then some (w.update p { q with connection := .off false }) else none
  | .arrive t =>
      if t ∈ w.stray then some { w with stray := w.stray.erase t, versions := w.versions.raise w.clock t } else none
  | .expire e => some { w with entries := w.entries.erase e }
  | .expireInMemory p e =>
      let q := w.processes p
      some (w.update p { q with memory := q.memory.erase e })

/-- Every move has a time of its own. -/
def World.step (w : World) (m : Move) : Option World :=
  (w.act memoryEntries m).map fun w' => { w' with clock := w'.clock + 1 }

/-! ### What should hold -/

/-- What a call gives began to be loaded after the changes to its tables that were acknowledged before the call. -/
def Answered.Fresh (a : Answered) : Prop := ∀ e ∈ a.seen, e.1 ∈ a.name.names → e.2 ≤ a.began

instance (a : Answered) : Decidable a.Fresh := inferInstanceAs (Decidable (∀ _ ∈ _, _))

/-- Since the change of that time, the process has invalidated the table. -/
def Process.hasInvalidated (q : Process) (t : Table) (time : ℕ) : Bool :=
  q.resolved.any fun i => t ∈ i.1 && time ≤ i.2

/-- No call begins between the commit of a transaction and the next invalidation of what it wrote; no entry is read
or kept in one store by versions of the other; and Redis is connected without raising its versions only when no
invalidation was missed. -/
def World.careful (w : World) : Move → Bool
  | .begin p name =>
      w.writes.all fun wr => !(wr.invalidated && wr.statement.process = p && wr.statement.inTransaction) ||
        wr.committedAt.all fun c => wr.statement.operation.changes.all fun t =>
          t ∉ name.names || (w.processes p).hasInvalidated t c
  | .goOn (.read p key _) =>
      key.source = .memory || (w.processes p).redis ≠ some .memory || !(w.processes p).memory.any (·.isAt key)
  | .goOn (.get _ key _) => key.source = .redis || !w.entries.any (·.isAt key)
  | .goOn (.write p key _) => key.source = .memory || (w.processes p).redis ≠ some .memory
  | .goOn (.set _ key _) => key.source = .redis
  | .connected p => !(w.processes p).missed || (w.processes p).staleAfterReconnect
  | _ => true

end Pokyh.Cache

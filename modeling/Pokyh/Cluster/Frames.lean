import Mathlib.Data.List.Nodup
import Mathlib.Logic.Function.Basic
import Mathlib.Tactic.Linarith
import Pokyh.Lib.Runs

/-!
# Cluster — Frames

The sealed frames of the calls between two nodes (`crypto.ts` and `rpc`, `handleRpc` of
`transport.ts`): the client seals each attempt of a call with its session's next counter, the server
opens it, lets each counter in once (`ReplayWindow`) and seals the answer with the counter it was
asked with.

The network delivers what it likes as often as it likes, and nothing opens that was not sealed with
the same key, direction, session and counter.  A session's keys are named by the handshake and the
session they are derived from, and no two handshakes and no two sessions have the same name (their
random parts).  Sessions may end at any moment, and both processes restart.

* `ReplayWindow.accept_iff`: **the window is exact**, also after its memory is trimmed.
* `no_nonce_reuse`: **no key is used twice with one counter, and each genuine frame is executed at most
  once.**
-/

namespace Pokyh.Cluster.Frames
open Pokyh.Lib

/-! ### The replay window -/

structure ReplayWindow where
  size : ℕ
  highest : ℤ
  seen : List ℤ
  deriving DecidableEq, Repr

namespace ReplayWindow

def new (size : ℕ) : ReplayWindow := ⟨size, -1, []⟩

/-- The window with one more counter let in; what is too old is forgotten once there is much of it. -/
def remember (w : ReplayWindow) (counter : ℤ) : ReplayWindow :=
  let seen := w.seen ++ [counter]
  let highest := max w.highest counter
  { w with
    highest := highest
    seen := if seen.length > w.size * 2 then
        seen.filter fun value => !decide (value ≤ highest - w.size)
      else seen }

/-- Whether a counter is let in, and the window afterwards. -/
def accept (w : ReplayWindow) (counter : ℤ) : Bool × ReplayWindow :=
  if counter < 0 then (false, w)
  else if w.highest ≥ 0 ∧ counter ≤ w.highest - w.size then (false, w)
  else if counter ∈ w.seen then (false, w)
  else (true, w.remember counter)

/-- The window remembers of the counters let in so far the ones it could be asked about again. -/
structure Tracks (w : ReplayWindow) (accepted : List ℤ) : Prop where
  seen : ∀ counter ∈ w.seen, counter ∈ accepted
  kept : ∀ counter ∈ accepted, counter ∈ w.seen ∨ counter ≤ w.highest - w.size
  highest : ∀ counter ∈ accepted, 0 ≤ counter ∧ counter ≤ w.highest

theorem tracks_new (size : ℕ) : (new size).Tracks [] := ⟨nofun, nofun, nofun⟩

variable {w w' : ReplayWindow} {accepted : List ℤ} {counter : ℤ}

/-- **The window is exact**: it lets in what is not too old and was not let in before. -/
theorem accept_iff (h : w.Tracks accepted) :
    (w.accept counter).1 = true ↔
      0 ≤ counter ∧ (w.highest < 0 ∨ w.highest - w.size < counter) ∧ counter ∉ accepted := by
  simp only [accept]
  by_cases hneg : counter < 0
  · simp [hneg]
  by_cases hold : w.highest ≥ 0 ∧ counter ≤ w.highest - w.size
  · simp only [hneg, hold, if_false, and_self, if_true, Bool.false_eq_true, false_iff]
    omega
  by_cases hseen : counter ∈ w.seen
  · simp [hneg, hold, hseen, h.seen counter hseen]
  · simp only [hneg, hold, hseen, if_false, true_iff]
    refine ⟨by omega, by omega, fun hacc => ?_⟩
    have hle := h.highest counter hacc
    rcases h.kept counter hacc with hin | hlow
    · exact hseen hin
    · omega

theorem remember_tracks (h : w.Tracks accepted) (hpos : 0 ≤ counter) :
    (w.remember counter).Tracks (counter :: accepted) := by
  have hkept : ∀ c ∈ counter :: accepted, c ∈ w.seen ++ [counter] ∨ c ≤ w.highest - w.size := by
    intro c hc
    rcases List.mem_cons.mp hc with rfl | hc
    · simp
    · exact (h.kept c hc).imp_left (List.mem_append_left _)
  refine ⟨fun c hc => ?_, fun c hc => ?_, fun c hc => ?_⟩
  · have hc : c ∈ w.seen ++ [counter] := by
      simp only [remember] at hc
      split at hc
      · exact (List.mem_filter.mp hc).1
      · exact hc
    rcases List.mem_append.mp hc with hc | hc
    · exact List.mem_cons_of_mem _ (h.seen c hc)
    · rw [List.mem_singleton.mp hc]
      exact List.mem_cons_self
  · simp only [remember]
    rcases hkept c hc with hin | hlow
    · split
      · by_cases hle : c ≤ max w.highest counter - w.size
        · exact .inr hle
        · exact .inl (List.mem_filter.mpr ⟨hin, by simpa using hle⟩)
      · exact .inl hin
    · exact .inr (by omega)
  · simp only [remember]
    rcases List.mem_cons.mp hc with rfl | hc
    · exact ⟨hpos, le_max_right _ _⟩
    · have := h.highest c hc
      exact ⟨this.1, this.2.trans (le_max_left _ _)⟩

/-- A counter that is turned away leaves the window as it was. -/
theorem accept_cases (w : ReplayWindow) (counter : ℤ) :
    w.accept counter = (false, w) ∨ w.accept counter = (true, w.remember counter) := by
  simp only [accept]
  split_ifs <;> simp

end ReplayWindow

/-! ### Keys and sealed frames -/

inductive Direction where
  | c2s | s2c
  deriving DecidableEq, Repr

/-- A session's key for one direction, named by what it is derived from. -/
structure Key where
  handshake : ℕ
  sid : ℕ
  direction : Direction
  deriving DecidableEq, Repr

structure Seal where
  key : Key
  direction : Direction
  sid : ℕ
  counter : ℕ
  content : String
  deriving DecidableEq, Repr

/-- What AES-GCM must never see twice: the key and the nonce, which is the counter. -/
def Seal.use (frame : Seal) : Key × ℕ := (frame.key, frame.counter)

/-- The bytes of a frame: sealed by somebody, or made up. -/
inductive Body where
  | sealed (frame : Seal)
  | forged (bytes : String)
  deriving DecidableEq, Repr

/-- Opens exactly what was sealed with the key for this direction, session and counter. -/
def openFrame (key : Key) (direction : Direction) (sid counter : ℕ) : Body → Option String
  | .sealed frame =>
      if frame.key = key ∧ frame.direction = direction ∧ frame.sid = sid ∧ frame.counter = counter
      then some frame.content else none
  | .forged _ => none

/-! ### The two ends -/

structure ClientSession where
  sid : ℕ
  counter : ℕ
  deriving DecidableEq, Repr

structure ServerSession where
  sid : ℕ
  handshake : ℕ
  replay : ReplayWindow
  deriving DecidableEq, Repr

inductive Phase where
  | ready
  | sent (handshake counter : ℕ)
  | over
  deriving DecidableEq, Repr

/-- A call under way: each attempt seals its content anew. -/
structure Call where
  content : String
  attempt : ℕ
  phase : Phase
  deriving DecidableEq, Repr

/-- A frame that was let in and is not answered yet. -/
structure Task where
  sid : ℕ
  handshake : ℕ
  counter : ℕ
  content : String
  /-- The handler has run, or the content could not be read. -/
  handled : Bool
  deriving DecidableEq, Repr

structure World where
  /-- Handshakes begun so far, and how many of them belong to earlier processes of the client. -/
  handshakes : ℕ
  forgotten : ℕ
  /-- The client's sessions, by the handshake that opened them. -/
  clients : ℕ → Option ClientSession
  calls : ℕ → Option Call
  /-- The sessions the server has answered with. -/
  accepts : List (ℕ × ℕ)
  sids : ℕ
  servers : List ServerSession
  tasks : List Task
  /-- What the client and the server have sealed. -/
  asked : List Seal
  answered : List Seal
  /-- What the server has let in, and which of it the handler has run for. -/
  accepted : List (ℕ × ℕ)
  executed : List Seal

inductive Event where
  /-- The client begins a handshake. -/
  | openSession
  /-- The server answers the client's message, which may arrive more than once. -/
  | handleSession (handshake : ℕ)
  | established (handshake sid : ℕ)
  | begin (c : ℕ) (content : String)
  /-- An attempt of a call in one of the client's sessions. -/
  | attempt (c handshake : ℕ)
  /-- The server does not know the session, or the channel has failed. -/
  | retry (c : ℕ)
  | answer (c : ℕ) (body : Body)
  /-- A request arrives at the server. -/
  | deliver (sid counter : ℕ) (body : Body)
  | handle (task : Task) (readable : Bool)
  | reply (task : Task) (content : String)
  | dropSession (sid : ℕ)
  | restartClient
  | restartServer

def WINDOW_SIZE : ℕ := 4096

/-- `writeBigUInt64BE` takes 64 bits. -/
def MAX_COUNTER : ℕ := 2 ^ 64

namespace World
variable (w : World)

def setCall (c : ℕ) (call : Call) : World := { w with calls := Function.update w.calls c (some call) }

/-- The body was sealed by one of the two, or by nobody. -/
def known : Body → Bool
  | .sealed frame => frame ∈ w.asked ++ w.answered
  | .forged _ => true

/-- A frame with the session's next counter; the counter is taken first. -/
def attempt (c : ℕ) (call : Call) (handshake : ℕ) (session : ClientSession) : World :=
  let used : ClientSession := { session with counter := session.counter + 1 }
  let w := { w with clients := Function.update w.clients handshake (some used) }
  if session.counter < MAX_COUNTER then
    { w.setCall c { call with phase := .sent handshake session.counter } with
      asked := ⟨⟨handshake, session.sid, .c2s⟩, .c2s, session.sid, session.counter, call.content⟩ ::
        w.asked }
  else w.setCall c { call with phase := .over }

/-- `handleRpc` up to the replay window. -/
def deliver (session : ServerSession) (counter : ℕ) (body : Body) : World :=
  match openFrame ⟨session.handshake, session.sid, .c2s⟩ .c2s session.sid counter body with
  | none => w
  | some content =>
      match session.replay.accept counter with
      | (false, _) => w
      | (true, replay) =>
          { w with
            servers := w.servers.map fun other =>
              if other.sid = session.sid then { other with replay := replay } else other
            tasks := ⟨session.sid, session.handshake, counter, content, false⟩ :: w.tasks
            accepted := (session.sid, counter) :: w.accepted }

end World

def step (w : World) : Event → Option World
  | .openSession => some { w with handshakes := w.handshakes + 1 }
  | .handleSession handshake =>
      if handshake < w.handshakes then
        some { w with
          servers := w.servers ++ [⟨w.sids, handshake, .new WINDOW_SIZE⟩]
          accepts := (handshake, w.sids) :: w.accepts
          sids := w.sids + 1 }
      else none
  | .established handshake sid =>
      if w.forgotten ≤ handshake ∧ (handshake, sid) ∈ w.accepts ∧ (w.clients handshake).isNone then
        some { w with clients := Function.update w.clients handshake (some ⟨sid, 0⟩) }
      else none
  | .begin c content =>
      if (w.calls c).isNone then some (w.setCall c ⟨content, 0, .ready⟩) else none
  | .attempt c handshake =>
      match w.calls c, w.clients handshake with
      | some call, some session =>
          if call.phase = .ready ∧ call.attempt < 3 then some (w.attempt c call handshake session)
          else none
      | _, _ => none
  | .retry c =>
      match w.calls c with
      | some call =>
          match call.phase with
          | .sent _ _ => some (w.setCall c { call with attempt := call.attempt + 1, phase := .ready })
          | _ => none
      | none => none
  | .answer c body =>
      match w.calls c with
      | some call =>
          match call.phase with
          | .sent _ _ => if w.known body then some (w.setCall c { call with phase := .over }) else none
          | _ => none
      | none => none
  | .deliver sid counter body =>
      if w.known body ∧ counter < MAX_COUNTER then
        match w.servers.find? fun session => session.sid = sid with
        | none => some w
        | some session => some (w.deliver session counter body)
      else none
  | .handle task readable =>
      if task ∈ w.tasks ∧ task.handled = false then
        some { w with
          tasks := { task with handled := true } :: w.tasks.erase task
          executed := if readable then
              ⟨⟨task.handshake, task.sid, .c2s⟩, .c2s, task.sid, task.counter, task.content⟩ ::
                w.executed
            else w.executed }
      else none
  | .reply task content =>
      if task ∈ w.tasks ∧ task.handled = true then
        some { w with
          tasks := w.tasks.erase task
          answered := ⟨⟨task.handshake, task.sid, .s2c⟩, .s2c, task.sid, task.counter, content⟩ ::
            w.answered }
      else none
  | .dropSession sid => some { w with servers := w.servers.filter fun session => session.sid ≠ sid }
  | .restartClient =>
      some { w with forgotten := w.handshakes, clients := fun _ => none, calls := fun _ => none }
  | .restartServer => some { w with servers := [], tasks := [] }

def World.start : World :=
  ⟨0, 0, fun _ => none, fun _ => none, [], 0, [], [], [], [], [], []⟩

/-! ### What holds in every state -/

/-- The frame a task was let in for. -/
def Task.frame (task : Task) : Seal :=
  ⟨⟨task.handshake, task.sid, .c2s⟩, .c2s, task.sid, task.counter, task.content⟩

/-- What the client has sealed. -/
structure Asked (w : World) : Prop where
  once : (w.asked.map Seal.use).Nodup
  direction : ∀ frame ∈ w.asked, frame.key.direction = .c2s
  /-- A session's counter is past everything sealed in it. -/
  past : ∀ frame ∈ w.asked, frame.key.handshake < w.forgotten ∨
    ∃ session, w.clients frame.key.handshake = some session ∧ frame.key.sid = session.sid ∧
      frame.counter < session.counter
  forgotten : w.forgotten ≤ w.handshakes
  alive : ∀ h session, w.clients h = some session → w.forgotten ≤ h ∧ h < w.handshakes
  accepts : ∀ h sid, (h, sid) ∈ w.accepts → h < w.handshakes

/-- What the server has let in, executed and answered. -/
structure Served (w : World) : Prop where
  sessions : (w.servers.map ServerSession.sid).Nodup
  fresh : (∀ session ∈ w.servers, session.sid < w.sids) ∧ ∀ a ∈ w.accepted, a.1 < w.sids
  /-- Each window tracks what was let in in its session. -/
  windows : ∀ session ∈ w.servers, session.replay.Tracks
    ((w.accepted.filter fun a => a.1 = session.sid).map fun a => (a.2 : ℤ))
  once : w.accepted.Nodup
  /-- What was let in is waiting, or answered, once. -/
  tasks : (w.tasks.map (fun task => (task.sid, task.counter)) ++
    w.answered.map fun frame => (frame.key.sid, frame.counter)).Nodup
  accepted : (∀ task ∈ w.tasks, (task.sid, task.counter) ∈ w.accepted) ∧
    ∀ frame ∈ w.answered, (frame.key.sid, frame.counter) ∈ w.accepted
  direction : ∀ frame ∈ w.answered, frame.key.direction = .s2c
  executed : (w.executed.map fun frame => (frame.key.sid, frame.counter)).Nodup
  pending : ∀ task ∈ w.tasks, task.handled = false →
    (task.sid, task.counter) ∉ w.executed.map fun frame => (frame.key.sid, frame.counter)
  ran : ∀ frame ∈ w.executed, (frame.key.sid, frame.counter) ∈ w.accepted
  genuine : (∀ task ∈ w.tasks, task.frame ∈ w.asked) ∧ ∀ frame ∈ w.executed, frame ∈ w.asked

/-! ### The result -/

/-- No key is used twice with one counter, by either end, and the handler runs at most once for each
genuine frame and for no other. -/
structure OneTime (w : World) : Prop where
  uses : ((w.asked ++ w.answered).map Seal.use).Nodup
  executed : w.executed.Nodup ∧ ∀ frame ∈ w.executed, frame ∈ w.asked

/-! ### The client -/

variable {w w' : World}

theorem Asked.congr (h : Asked w) (hasked : w'.asked = w.asked) (hclients : w'.clients = w.clients)
    (hhandshakes : w'.handshakes = w.handshakes) (hforgotten : w'.forgotten = w.forgotten)
    (haccepts : w'.accepts = w.accepts) : Asked w' :=
  ⟨by rw [hasked]; exact h.once, by rw [hasked]; exact h.direction,
    by rw [hasked, hclients, hforgotten]; exact h.past, by rw [hforgotten, hhandshakes]; exact h.forgotten,
    by rw [hclients, hforgotten, hhandshakes]; exact h.alive,
    by rw [haccepts, hhandshakes]; exact h.accepts⟩

/-- A session takes its counters one after the other. -/
theorem Asked.attempt {c handshake : ℕ} {call : Call} {session : ClientSession} (h : Asked w)
    (hc : w.clients handshake = some session) : Asked (w.attempt c call handshake session) := by
  -- Whether or not it is sealed with: the counter is gone.
  have hused : Asked { w with
      clients := Function.update w.clients handshake
        (some { session with counter := session.counter + 1 }) } := by
    refine ⟨h.once, h.direction, fun frame hf => ?_, h.forgotten, fun n s hn => ?_, h.accepts⟩
    · rcases h.past frame hf with hlt | ⟨s, hs, hsid, hlt⟩
      · exact .inl hlt
      · refine .inr ?_
        rcases eq_or_ne frame.key.handshake handshake with he | hne
        · rw [he, hc] at hs
          cases hs
          refine ⟨{ session with counter := session.counter + 1 }, ?_, hsid, Nat.lt_succ_of_lt hlt⟩
          rw [he]
          exact Function.update_self ..
        · exact ⟨s, (Function.update_of_ne hne ..).trans hs, hsid, hlt⟩
    · rcases eq_or_ne n handshake with rfl | hne
      · exact h.alive n session hc
      · exact h.alive n s ((Function.update_of_ne hne ..).symm.trans hn)
  simp only [World.attempt]
  split
  · refine ⟨List.nodup_cons.mpr ⟨fun hin => ?_, h.once⟩, fun frame hf => ?_, fun frame hf => ?_,
      h.forgotten, hused.alive, h.accepts⟩
    · obtain ⟨frame, hf, huse⟩ := List.mem_map.mp hin
      obtain ⟨hkey, hcounter⟩ := Prod.mk.inj huse
      rcases h.past frame hf with hlt | ⟨s, hs, -, hlt⟩
      · rw [hkey] at hlt
        exact absurd hlt (h.alive handshake session hc).1.not_gt
      · rw [hkey, hc] at hs
        cases hs
        exact absurd hcounter hlt.ne
    · rcases List.mem_cons.mp hf with rfl | hf
      · rfl
      · exact h.direction frame hf
    · rcases List.mem_cons.mp hf with rfl | hf
      · exact .inr ⟨_, Function.update_self .., rfl, Nat.lt_succ_self _⟩
      · exact hused.past frame hf
  · exact hused.congr rfl rfl rfl rfl rfl

theorem Asked.established {handshake sid : ℕ} (h : Asked w) (hforgotten : w.forgotten ≤ handshake)
    (haccepts : (handshake, sid) ∈ w.accepts) (hnone : (w.clients handshake).isNone = true) :
    Asked { w with clients := Function.update w.clients handshake (some ⟨sid, 0⟩) } := by
  refine ⟨h.once, h.direction, fun frame hf => ?_, h.forgotten, fun n session hn => ?_, h.accepts⟩
  · rcases h.past frame hf with hlt | ⟨session, hs, hsid, hlt⟩
    · exact .inl hlt
    · have hne : frame.key.handshake ≠ handshake := by
        rintro rfl
        rw [hs] at hnone
        cases hnone
      exact .inr ⟨session, (Function.update_of_ne hne ..).trans hs, hsid, hlt⟩
  · rcases eq_or_ne n handshake with rfl | hne
    · exact ⟨hforgotten, h.accepts _ _ haccepts⟩
    · exact h.alive n session ((Function.update_of_ne hne ..).symm.trans hn)

theorem Asked.deliver {session : ServerSession} {counter : ℕ} {body : Body} (h : Asked w) :
    Asked (w.deliver session counter body) := by
  simp only [World.deliver]
  split
  · exact h
  · split
    · exact h
    · exact h.congr rfl rfl rfl rfl rfl

theorem Asked.step {e : Event} (h : Asked w) (hs : Frames.step w e = some w') : Asked w' := by
  cases e with
  | openSession =>
      cases hs
      exact ⟨h.once, h.direction, h.past, h.forgotten.trans (Nat.le_succ _),
        fun n session hn => ⟨(h.alive n session hn).1, (h.alive n session hn).2.trans (Nat.lt_succ_self _)⟩,
        fun n sid hn => (h.accepts n sid hn).trans (Nat.lt_succ_self _)⟩
  | handleSession handshake =>
      obtain ⟨hlt, ⟨⟩⟩ := Option.ite_none_right_eq_some.mp hs
      refine ⟨h.once, h.direction, h.past, h.forgotten, h.alive, fun n sid hn => ?_⟩
      rcases List.mem_cons.mp hn with hn | hn
      · rw [(Prod.mk.inj hn).1]
        exact hlt
      · exact h.accepts n sid hn
  | established handshake sid =>
      obtain ⟨⟨hforgotten, haccepts, hnone⟩, ⟨⟩⟩ := Option.ite_none_right_eq_some.mp hs
      exact h.established hforgotten haccepts hnone
  | «begin» c content =>
      obtain ⟨-, ⟨⟩⟩ := Option.ite_none_right_eq_some.mp hs
      exact h.congr rfl rfl rfl rfl rfl
  | attempt c handshake =>
      simp only [Frames.step] at hs
      split at hs
      · next call session hcall hc =>
        obtain ⟨-, ⟨⟩⟩ := Option.ite_none_right_eq_some.mp hs
        exact h.attempt hc
      · cases hs
  | retry c =>
      simp only [Frames.step] at hs
      split at hs
      · split at hs
        · cases hs
          exact h.congr rfl rfl rfl rfl rfl
        · cases hs
      · cases hs
  | answer c body =>
      simp only [Frames.step] at hs
      split at hs
      · split at hs
        · obtain ⟨-, ⟨⟩⟩ := Option.ite_none_right_eq_some.mp hs
          exact h.congr rfl rfl rfl rfl rfl
        · cases hs
      · cases hs
  | deliver sid counter body =>
      obtain ⟨-, hs⟩ := Option.ite_none_right_eq_some.mp hs
      split at hs
      · cases hs
        exact h
      · cases hs
        exact h.deliver
  | handle task readable =>
      obtain ⟨-, ⟨⟩⟩ := Option.ite_none_right_eq_some.mp hs
      exact h.congr rfl rfl rfl rfl rfl
  | reply task content =>
      obtain ⟨-, ⟨⟩⟩ := Option.ite_none_right_eq_some.mp hs
      exact h.congr rfl rfl rfl rfl rfl
  | dropSession sid => cases hs; exact h.congr rfl rfl rfl rfl rfl
  | restartClient =>
      cases hs
      refine ⟨h.once, h.direction, fun frame hf => ?_, le_rfl, nofun, h.accepts⟩
      rcases h.past frame hf with hlt | ⟨session, hs, -, -⟩
      · exact .inl (hlt.trans_le h.forgotten)
      · exact .inl (h.alive _ session hs).2
  | restartServer => cases hs; exact h.congr rfl rfl rfl rfl rfl

/-! ### The server -/

theorem Served.mono (h : Served w) (hservers : w'.servers = w.servers) (hsids : w'.sids = w.sids)
    (htasks : w'.tasks = w.tasks) (hanswered : w'.answered = w.answered)
    (haccepted : w'.accepted = w.accepted) (hexecuted : w'.executed = w.executed)
    (hasked : ∀ frame ∈ w.asked, frame ∈ w'.asked) : Served w' :=
  ⟨by rw [hservers]; exact h.sessions, by rw [hservers, hsids, haccepted]; exact h.fresh,
    by rw [hservers, haccepted]; exact h.windows, by rw [haccepted]; exact h.once,
    by rw [htasks, hanswered]; exact h.tasks, by rw [htasks, hanswered, haccepted]; exact h.accepted,
    by rw [hanswered]; exact h.direction, by rw [hexecuted]; exact h.executed,
    by rw [htasks, hexecuted]; exact h.pending, by rw [hexecuted, haccepted]; exact h.ran,
    by rw [htasks, hexecuted]; exact ⟨fun t ht => hasked _ (h.genuine.1 t ht),
      fun f hf => hasked _ (h.genuine.2 f hf)⟩⟩

/-- Sessions end; what they have let in stays on record. -/
theorem Served.of_sublist {servers : List ServerSession} (h : Served w)
    (hsub : servers.Sublist w.servers) : Served { w with servers := servers } :=
  ⟨(hsub.map _).nodup h.sessions, ⟨fun s hs => h.fresh.1 s (hsub.subset hs), h.fresh.2⟩,
    fun s hs => h.windows s (hsub.subset hs), h.once, h.tasks, h.accepted, h.direction, h.executed,
    h.pending, h.ran, h.genuine⟩

theorem Served.handleSession {handshake : ℕ} (h : Served w) : Served { w with
    servers := w.servers ++ [⟨w.sids, handshake, .new WINDOW_SIZE⟩]
    accepts := (handshake, w.sids) :: w.accepts
    sids := w.sids + 1 } := by
  refine ⟨?_, ⟨fun s hs => ?_, fun a ha => (h.fresh.2 a ha).trans (Nat.lt_succ_self _)⟩,
    fun s hs => ?_, h.once, h.tasks, h.accepted, h.direction, h.executed, h.pending, h.ran, h.genuine⟩
  · rw [List.map_append, List.nodup_append]
    refine ⟨h.sessions, List.nodup_singleton _, ?_⟩
    rintro sid hsid _ hnew rfl
    obtain ⟨s, hs, rfl⟩ := List.mem_map.mp hsid
    exact (h.fresh.1 s hs).ne (List.mem_singleton.mp hnew)
  · rcases List.mem_append.mp hs with hs | hs
    · exact (h.fresh.1 s hs).trans (Nat.lt_succ_self _)
    · rw [List.mem_singleton.mp hs]
      exact Nat.lt_succ_self _
  · rcases List.mem_append.mp hs with hs | hs
    · exact h.windows s hs
    · have hnone : w.accepted.filter (fun a => a.1 = w.sids) = [] :=
        List.filter_eq_nil_iff.mpr fun a ha => by simpa using (h.fresh.2 a ha).ne
      rw [List.mem_singleton.mp hs, hnone]
      exact ReplayWindow.tracks_new _

/-- What opens in a session's direction was sealed by the client. -/
theorem mem_asked_of_openFrame {key : Key} {sid counter : ℕ} {body : Body} {content : String}
    (h : Served w) (hknown : w.known body = true) (hkey : key.direction = .c2s)
    (hopen : openFrame key .c2s sid counter body = some content) :
    (⟨key, .c2s, sid, counter, content⟩ : Seal) ∈ w.asked := by
  cases body with
  | forged => cases hopen
  | sealed frame =>
      obtain ⟨⟨rfl, hdir, rfl, rfl⟩, hcontent⟩ := Option.ite_none_right_eq_some.mp hopen
      obtain rfl := Option.some.inj hcontent
      have hframe : (⟨frame.key, .c2s, frame.sid, frame.counter, frame.content⟩ : Seal) = frame := by
        rw [← hdir]
      rw [hframe]
      rcases List.mem_append.mp (of_decide_eq_true hknown) with hin | hin
      · exact hin
      · rw [h.direction frame hin] at hkey
        cases hkey

/-- **A frame is let in** at most once in its session, and only if the client sealed it. -/
theorem Served.deliver {session : ServerSession} {counter : ℕ} {body : Body} (h : Served w)
    (hs : session ∈ w.servers) (hknown : w.known body = true) :
    Served (w.deliver session counter body) := by
  simp only [World.deliver]
  split
  · exact h
  next content hopen =>
  rcases session.replay.accept_cases counter with hr | hr
  · rw [hr]
    exact h
  rw [hr]
  have htracks := h.windows session hs
  have hacc := (ReplayWindow.accept_iff htracks).mp (congrArg Prod.fst hr)
  have hnew : (session.sid, counter) ∉ w.accepted := by
    intro hin
    refine hacc.2.2 (List.mem_map.mpr ⟨_, List.mem_filter.mpr ⟨hin, ?_⟩, rfl⟩)
    simp
  have hwaiting : (session.sid, counter) ∉ w.tasks.map (fun task => (task.sid, task.counter)) ++
      w.answered.map fun frame => (frame.key.sid, frame.counter) := by
    intro hin
    rcases List.mem_append.mp hin with hin | hin
    · obtain ⟨task, ht, he⟩ := List.mem_map.mp hin
      exact hnew (he ▸ h.accepted.1 task ht)
    · obtain ⟨frame, hf, he⟩ := List.mem_map.mp hin
      exact hnew (he ▸ h.accepted.2 frame hf)
  have hgenuine := mem_asked_of_openFrame h hknown rfl hopen
  refine ⟨?_, ⟨fun s hs' => ?_, fun a ha => ?_⟩, fun s hs' => ?_, List.nodup_cons.mpr ⟨hnew, h.once⟩,
    List.nodup_cons.mpr ⟨hwaiting, h.tasks⟩, ⟨fun task ht => ?_, fun frame hf =>
      List.mem_cons_of_mem _ (h.accepted.2 frame hf)⟩, h.direction, h.executed, fun task ht => ?_,
    fun frame hf => List.mem_cons_of_mem _ (h.ran frame hf), ⟨fun task ht => ?_, h.genuine.2⟩⟩
  · have hsids : (w.servers.map fun other =>
        if other.sid = session.sid then { other with replay := session.replay.remember counter }
        else other).map ServerSession.sid = w.servers.map ServerSession.sid := by
      rw [List.map_map]
      refine List.map_congr_left fun other _ => ?_
      simp only [Function.comp_apply]
      split <;> rfl
    rw [hsids]
    exact h.sessions
  · obtain ⟨other, hother, rfl⟩ := List.mem_map.mp hs'
    have := h.fresh.1 other hother
    split <;> exact this
  · rcases List.mem_cons.mp ha with rfl | ha
    · exact h.fresh.1 session hs
    · exact h.fresh.2 a ha
  · obtain ⟨other, hother, rfl⟩ := List.mem_map.mp hs'
    by_cases he : other.sid = session.sid
    · have : other = session := List.inj_on_of_nodup_map h.sessions hother hs he
      subst this
      rw [if_pos rfl, List.filter_cons_of_pos (by simp), List.map_cons]
      exact ReplayWindow.remember_tracks htracks hacc.1
    · rw [if_neg he, List.filter_cons_of_neg (by simpa using Ne.symm he)]
      exact h.windows other hother
  · rcases List.mem_cons.mp ht with rfl | ht
    · exact List.mem_cons_self
    · exact List.mem_cons_of_mem _ (h.accepted.1 task ht)
  · rcases List.mem_cons.mp ht with rfl | ht
    · intro _ hin
      obtain ⟨frame, hf, he⟩ := List.mem_map.mp hin
      exact hnew (he ▸ h.ran frame hf)
    · exact h.pending task ht
  · rcases List.mem_cons.mp ht with rfl | ht
    · exact hgenuine
    · exact h.genuine.1 task ht

theorem Served.handle {task : Task} {readable : Bool} (h : Served w) (ht : task ∈ w.tasks)
    (hnot : task.handled = false) : Served { w with
      tasks := { task with handled := true } :: w.tasks.erase task
      executed := if readable then task.frame :: w.executed else w.executed } := by
  have hperm : (task :: w.tasks.erase task).Perm w.tasks := (List.perm_cons_erase ht).symm
  have hpairs : (({ task with handled := true } :: w.tasks.erase task).map
      fun task => (task.sid, task.counter)).Perm (w.tasks.map fun task => (task.sid, task.counter)) :=
    hperm.map fun task : Task => (task.sid, task.counter)
  have hnodup := (List.nodup_append'.mp h.tasks).1
  have hothers : ∀ other ∈ w.tasks.erase task, (other.sid, other.counter) ≠ (task.sid, task.counter) := by
    intro other hother he
    have := (hpairs.nodup_iff.mpr hnodup)
    exact (List.nodup_cons.mp this).1 (List.mem_map.mpr ⟨other, hother, he⟩)
  refine ⟨h.sessions, h.fresh, h.windows, h.once, (hpairs.append_right _).nodup_iff.mpr h.tasks,
    ⟨fun other hother => ?_, h.accepted.2⟩, h.direction, ?_, fun other hother hn => ?_, fun frame hf => ?_,
    ⟨fun other hother => ?_, fun frame hf => ?_⟩⟩
  · rcases List.mem_cons.mp hother with rfl | hother
    · exact h.accepted.1 task ht
    · exact h.accepted.1 other (List.mem_of_mem_erase hother)
  · cases readable with
    | false => exact h.executed
    | true => exact List.nodup_cons.mpr ⟨h.pending task ht hnot, h.executed⟩
  · have hrest : other ∈ w.tasks.erase task := by
      rcases List.mem_cons.mp hother with rfl | hrest
      · cases hn
      · exact hrest
    have hold := h.pending other (List.mem_of_mem_erase hrest) hn
    cases readable with
    | false => exact hold
    | true =>
        intro hin
        rcases List.mem_cons.mp hin with he | hin
        · exact hothers other hrest he
        · exact hold hin
  · cases readable with
    | false => exact h.ran frame hf
    | true =>
        rcases List.mem_cons.mp hf with rfl | hf
        · exact h.accepted.1 task ht
        · exact h.ran frame hf
  · rcases List.mem_cons.mp hother with rfl | hother
    · exact h.genuine.1 task ht
    · exact h.genuine.1 other (List.mem_of_mem_erase hother)
  · cases readable with
    | false => exact h.genuine.2 frame hf
    | true =>
        rcases List.mem_cons.mp hf with rfl | hf
        · exact h.genuine.1 task ht
        · exact h.genuine.2 frame hf

theorem Served.reply {task : Task} {content : String} (h : Served w) (ht : task ∈ w.tasks) :
    Served { w with
      tasks := w.tasks.erase task
      answered := ⟨⟨task.handshake, task.sid, .s2c⟩, .s2c, task.sid, task.counter, content⟩ ::
        w.answered } := by
  have hperm : ((w.tasks.erase task).map (fun task => (task.sid, task.counter)) ++
      (task.sid, task.counter) :: w.answered.map fun frame => (frame.key.sid, frame.counter)).Perm
      (w.tasks.map (fun task => (task.sid, task.counter)) ++
        w.answered.map fun frame => (frame.key.sid, frame.counter)) := by
    refine List.perm_middle.trans ?_
    have := ((List.perm_cons_erase ht).symm.map fun task : Task => (task.sid, task.counter)).append_right
      (w.answered.map fun frame => (frame.key.sid, frame.counter))
    exact this
  refine ⟨h.sessions, h.fresh, h.windows, h.once, hperm.nodup_iff.mpr h.tasks,
    ⟨fun other hother => h.accepted.1 other (List.mem_of_mem_erase hother), fun frame hf => ?_⟩,
    fun frame hf => ?_, h.executed, fun other hother => h.pending other (List.mem_of_mem_erase hother),
    h.ran, ⟨fun other hother => h.genuine.1 other (List.mem_of_mem_erase hother), h.genuine.2⟩⟩
  · rcases List.mem_cons.mp hf with rfl | hf
    · exact h.accepted.1 task ht
    · exact h.accepted.2 frame hf
  · rcases List.mem_cons.mp hf with rfl | hf
    · rfl
    · exact h.direction frame hf


theorem Served.step {e : Event} (h : Served w) (hs : Frames.step w e = some w') : Served w' := by
  cases e with
  | openSession => cases hs; exact h.mono rfl rfl rfl rfl rfl rfl fun _ => id
  | handleSession handshake =>
      obtain ⟨-, ⟨⟩⟩ := Option.ite_none_right_eq_some.mp hs
      exact h.handleSession
  | established handshake sid =>
      obtain ⟨-, ⟨⟩⟩ := Option.ite_none_right_eq_some.mp hs
      exact h.mono rfl rfl rfl rfl rfl rfl fun _ => id
  | «begin» c content =>
      obtain ⟨-, ⟨⟩⟩ := Option.ite_none_right_eq_some.mp hs
      exact h.mono rfl rfl rfl rfl rfl rfl fun _ => id
  | attempt c handshake =>
      simp only [Frames.step] at hs
      split at hs
      · obtain ⟨-, ⟨⟩⟩ := Option.ite_none_right_eq_some.mp hs
        simp only [World.attempt]
        split
        · exact h.mono rfl rfl rfl rfl rfl rfl fun _ => List.mem_cons_of_mem _
        · exact h.mono rfl rfl rfl rfl rfl rfl fun _ => id
      · cases hs
  | retry c =>
      simp only [Frames.step] at hs
      split at hs
      · split at hs
        · cases hs
          exact h.mono rfl rfl rfl rfl rfl rfl fun _ => id
        · cases hs
      · cases hs
  | answer c body =>
      simp only [Frames.step] at hs
      split at hs
      · split at hs
        · obtain ⟨-, ⟨⟩⟩ := Option.ite_none_right_eq_some.mp hs
          exact h.mono rfl rfl rfl rfl rfl rfl fun _ => id
        · cases hs
      · cases hs
  | deliver sid counter body =>
      obtain ⟨⟨hknown, -⟩, hs⟩ := Option.ite_none_right_eq_some.mp hs
      split at hs
      · cases hs
        exact h
      · next session hfind =>
        cases hs
        exact h.deliver (List.mem_of_find?_eq_some hfind) hknown
  | handle task readable =>
      obtain ⟨⟨ht, hnot⟩, ⟨⟩⟩ := Option.ite_none_right_eq_some.mp hs
      exact h.handle ht hnot
  | reply task content =>
      obtain ⟨⟨ht, -⟩, ⟨⟩⟩ := Option.ite_none_right_eq_some.mp hs
      exact h.reply ht
  | dropSession sid => cases hs; exact h.of_sublist List.filter_sublist
  | restartClient => cases hs; exact h.mono rfl rfl rfl rfl rfl rfl fun _ => id
  | restartServer =>
      cases hs
      have hnone := h.of_sublist (List.nil_sublist _)
      have hanswered := (List.nodup_append'.mp h.tasks).2.1
      exact ⟨hnone.sessions, hnone.fresh, hnone.windows, h.once, hanswered, ⟨nofun, h.accepted.2⟩,
        h.direction, h.executed, nofun, h.ran, ⟨nofun, h.genuine.2⟩⟩

/-! ### No key twice with one counter -/

theorem oneTime_of (ha : Asked w) (hs : Served w) : OneTime w := by
  refine ⟨?_, hs.executed.of_map, hs.genuine.2⟩
  rw [List.map_append, List.nodup_append]
  refine ⟨ha.once, ?_, ?_⟩
  · have hanswered := (List.nodup_append'.mp hs.tasks).2.1
    refine List.Nodup.of_map (fun use : Key × ℕ => (use.1.sid, use.2)) ?_
    rw [List.map_map]
    exact hanswered
  · rintro _ hin _ hin' rfl
    obtain ⟨frame, hf, rfl⟩ := List.mem_map.mp hin
    obtain ⟨frame', hf', he⟩ := List.mem_map.mp hin'
    have hdir := congrArg Key.direction (Prod.mk.inj he).1
    rw [hs.direction frame' hf', ha.direction frame hf] at hdir
    cases hdir

theorem asked_start : Asked .start := ⟨List.nodup_nil, nofun, nofun, le_rfl, nofun, nofun⟩

theorem served_start : Served .start :=
  ⟨List.nodup_nil, ⟨nofun, nofun⟩, nofun, List.nodup_nil, List.nodup_nil, ⟨nofun, nofun⟩, nofun,
    List.nodup_nil, nofun, nofun, ⟨nofun, nofun⟩⟩

/-- **No key is used twice with one counter**, by either end, and the handler runs at most once for
each genuine frame. -/
theorem no_nonce_reuse {events : List Event} (h : run step .start events = some w) : OneTime w :=
  oneTime_of (run_invariant (fun _ _ _ h hs => h.step hs) asked_start h)
    (run_invariant (fun _ _ _ h hs => h.step hs) served_start h)

/-- A call whose answer is lost: its frame is repeated, and tried again with the next counter. -/
def repeatedCall : List Event :=
  let frame : Seal := ⟨⟨0, 0, .c2s⟩, .c2s, 0, 0, "call"⟩
  let task : Task := ⟨0, 0, 0, "call", false⟩
  [.openSession, .handleSession 0, .established 0 0, .begin 0 "call", .attempt 0 0,
    .deliver 0 0 (.sealed frame), .deliver 0 0 (.sealed frame), .handle task true,
    .reply { task with handled := true } "answer", .retry 0, .attempt 0 0]

theorem no_nonce_reuse_repeatedCall :
    ∃ w, run step .start repeatedCall = some w ∧ w.asked.length = 2 ∧ w.executed.length = 1 ∧ OneTime w := by
  have hrun : ∃ w, run step .start repeatedCall = some w ∧ w.asked.length = 2 ∧ w.executed.length = 1 :=
    ⟨_, rfl, rfl, rfl⟩
  obtain ⟨w, hw, hasked, hexecuted⟩ := hrun
  exact ⟨w, hw, hasked, hexecuted, no_nonce_reuse hw⟩

end Pokyh.Cluster.Frames

import Mathlib.Algebra.Order.BigOperators.Group.List
import Mathlib.Algebra.Order.Ring.Nat
import Pokyh.Lib.Runs

/-!
# Node — Edge

The first container that accepts a connection (`connectFirst` of `deploy/node/edge.mjs`): addresses are tried one after the other, each
next one when the one before has failed or its turn is over.

* `step`: an event of a socket, of its timer or of the turn's, with what the callbacks do.
* `Sound`: what every run keeps, along with the connections that were made in it.
* `connectFirst_settles`: **the promise is settled once**, with the socket that connected if one did, and nothing stays open behind it.

Sockets are told apart by their place among those that were opened, and every call of `resolve` and `reject` is remembered.
-/

namespace Pokyh.Node.Edge
open Pokyh.Lib

inductive Phase where
  | connecting
  | connected
  | closed
  deriving DecidableEq, Repr

structure Socket where
  host : String
  phase : Phase
  isDestroyed : Bool
  /-- Its time to connect is running. -/
  timer : Bool
  deriving DecidableEq, Repr

def Socket.destroy (socket : Socket) : Socket := { socket with isDestroyed := true }

inductive Call where
  | resolve (socket : ℕ)
  | reject
  deriving DecidableEq, Repr

structure State where
  sockets : List Socket
  started : ℕ
  failed : ℕ
  settled : Bool
  staggerTimer : Bool
  calls : List Call
  deriving DecidableEq, Repr

/-- One socket of the state is changed. -/
def State.put (s : State) (i : ℕ) (socket : Socket) : State := { s with sockets := s.sockets.set i socket }

inductive Event where
  | connect (i : ℕ)
  /-- An error, or the end of a connection, after which a socket destroys itself. -/
  | error (i : ℕ)
  | close (i : ℕ)
  | timeout (i : ℕ)
  | stagger
  deriving DecidableEq, Repr

/-- Every socket but the winner is destroyed, and the promise settled. -/
def settle (s : State) (winner : Option ℕ) : State :=
  { s with
    settled := true
    staggerTimer := false
    sockets := s.sockets.mapIdx fun i socket => if winner = some i then socket else socket.destroy
    calls := s.calls ++ [match winner with
      | some i => .resolve i
      | none => .reject] }

section
variable (addresses : List String)

/-- The next address, if there is one. -/
def start (s : State) : State :=
  if s.settled then { s with staggerTimer := false }
  else
    match addresses[s.started]? with
    | none => { s with staggerTimer := false }
    | some host =>
      { s with
        sockets := s.sockets ++ [⟨host, .connecting, false, true⟩]
        started := s.started + 1
        staggerTimer := true }

/-- What the handlers of `connect` and `close` do once the socket's timer is off. -/
def onConnect (s : State) (i : ℕ) : State := if s.settled then s else settle s (some i)

def onClose (s : State) : State :=
  if s.settled then s
  else if s.failed + 1 = addresses.length then settle { s with failed := s.failed + 1 } none
  else start addresses { s with failed := s.failed + 1 }

/-- A socket that was destroyed connects no more and closes once; a timer goes off while it is running. -/
def step (s : State) : Event → Option State
  | .connect i => s.sockets[i]?.bind fun socket =>
    if socket.phase = .connecting ∧ socket.isDestroyed = false then
      some (onConnect (s.put i { socket with phase := .connected, timer := false }) i)
    else none
  | .error i => s.sockets[i]?.bind fun socket =>
    if socket.phase ≠ .closed ∧ socket.isDestroyed = false then some (s.put i socket.destroy) else none
  | .close i => s.sockets[i]?.bind fun socket =>
    if socket.phase ≠ .closed ∧ socket.isDestroyed = true then
      some (onClose addresses (s.put i { socket with phase := .closed, timer := false }))
    else none
  | .timeout i => s.sockets[i]?.bind fun socket =>
    if socket.timer then some (s.put i { socket.destroy with timer := false }) else none
  | .stagger => if s.staggerTimer then some (start addresses s) else none

/-- As the promise is made. -/
def connectFirst : State :=
  if addresses.length = 0 then settle ⟨[], 0, 0, false, false, []⟩ none else start addresses ⟨[], 0, 0, false, false, []⟩

end

/-! ### Counting over the sockets -/

theorem sum_map_set {α : Type*} (f : α → ℕ) {l : List α} {i : ℕ} {x : α} (h : l[i]? = some x) (y : α) :
    ((l.set i y).map f).sum + f x = (l.map f).sum + f y := by
  induction l generalizing i with
  | nil => cases h
  | cons z l ih =>
      cases i with
      | zero =>
          obtain rfl : z = x := by simpa using h
          simp only [List.set_cons_zero, List.map_cons, List.sum_cons]
          omega
      | succ i =>
          have hrest := ih (i := i) (by simpa using h)
          simp only [List.set_cons_succ, List.map_cons, List.sum_cons]
          omega

theorem sum_map_mapIdx_le {α : Type*} (f : α → ℕ) (l : List α) {g : ℕ → α → α} (h : ∀ i x, f (g i x) ≤ f x) :
    ((l.mapIdx g).map f).sum ≤ (l.map f).sum := by
  have hmap : (l.mapIdx g).map f = l.zipIdx.map fun x => f (g x.2 x.1) := by
    rw [List.mapIdx_eq_zipIdx_map, List.map_map]
    rfl
  have hplain : l.map f = l.zipIdx.map fun x => f x.1 := by
    conv_lhs => rw [← List.zipIdx_map_fst 0 l, List.map_map]
    rfl
  rw [hmap, hplain]
  exact List.sum_le_sum fun x _ => h x.2 x.1

/-- How many sockets have closed. -/
def closed (s : State) : ℕ := s.sockets.countP (·.phase = .closed)

def Phase.weight : Phase → ℕ
  | .connecting => 2
  | .connected => 1
  | .closed => 0

/-- What can still happen to a socket. -/
def Socket.weight (socket : Socket) : ℕ := socket.phase.weight + (!socket.isDestroyed).toNat + socket.timer.toNat

/-- What can still happen at all. -/
def weight (addresses : List String) (s : State) : ℕ :=
  5 * (addresses.length - s.started) + (s.sockets.map Socket.weight).sum + s.staggerTimer.toNat

/-! ### What every run keeps -/

variable {addresses : List String} {s s' : State} {taken : List Event} {i : ℕ} {socket socket' : Socket}

/-- The addresses that were tried, in their order, each with a socket that is still given time or has been destroyed. -/
structure Orderly (addresses : List String) (s : State) : Prop where
  started : s.started = s.sockets.length
  hosts : s.sockets.map Socket.host = addresses.take s.started
  le : s.started ≤ addresses.length
  timed : ∀ socket ∈ s.sockets, socket.phase = .connecting → socket.timer = true ∨ socket.isDestroyed = true
  gone : ∀ socket ∈ s.sockets, socket.phase = .closed → socket.isDestroyed = true

/-- Nothing has connected and something still may. -/
structure Pending (taken : List Event) (s : State) : Prop where
  settled : s.settled = false
  calls : s.calls = []
  failed : s.failed = closed s
  more : closed s < s.started
  none_connected : ∀ socket ∈ s.sockets, socket.phase ≠ .connected
  no_connect : ∀ i, Event.connect i ∉ taken

/-- The socket connected, first and alone. -/
structure Won (i : ℕ) (taken : List Event) (s : State) : Prop where
  settled : s.settled = true
  calls : s.calls = [.resolve i]
  winner : ∀ socket, s.sockets[i]? = some socket → socket.phase ≠ .connecting
  others : ∀ j socket, s.sockets[j]? = some socket → j ≠ i → socket.isDestroyed = true
  connect_iff : ∀ j, Event.connect j ∈ taken ↔ j = i

/-- Every address was tried and failed. -/
structure Lost (addresses : List String) (taken : List Event) (s : State) : Prop where
  settled : s.settled = true
  calls : s.calls = [.reject]
  tried : s.started = addresses.length
  all_closed : ∀ socket ∈ s.sockets, socket.phase = .closed
  no_connect : ∀ i, Event.connect i ∉ taken

structure Sound (addresses : List String) (taken : List Event) (s : State) : Prop where
  orderly : Orderly addresses s
  outcome : Pending taken s ∨ (∃ i, Won i taken s) ∨ Lost addresses taken s

/-- A socket as an event can leave it. -/
structure Follows (socket socket' : Socket) : Prop where
  host : socket'.host = socket.host
  connecting : socket'.phase = .connecting → socket.phase = .connecting
  destroyed : socket.isDestroyed = true → socket'.isDestroyed = true
  timed : socket'.phase = .connecting → socket'.timer = true ∨ socket'.isDestroyed = true
  gone : socket'.phase = .closed → socket'.isDestroyed = true

theorem getElem?_put {j : ℕ} {k : Socket} (h : (s.put i socket').sockets[j]? = some k) :
    (j = i ∧ k = socket') ∨ (j ≠ i ∧ s.sockets[j]? = some k) := by
  have hset : (s.sockets.set i socket')[j]? = some k := h
  rw [List.getElem?_set] at hset
  split at hset
  · rename_i heq
    split at hset
    · exact .inl ⟨heq.symm, (Option.some.inj hset).symm⟩
    · cases hset
  · rename_i hne
    exact .inr ⟨fun heq => hne heq.symm, hset⟩

theorem mem_put {k : Socket} (h : k ∈ (s.put i socket').sockets) : k ∈ s.sockets ∨ k = socket' := List.mem_or_eq_of_mem_set h

theorem getElem?_settle {winner : Option ℕ} {j : ℕ} : (settle s winner).sockets[j]? =
    s.sockets[j]?.map fun socket => if winner = some j then socket else socket.destroy := List.getElem?_mapIdx

/-- A socket after settling is the winner, or one that was destroyed. -/
theorem mem_settle {winner : Option ℕ} {k : Socket} (h : k ∈ (settle s winner).sockets) : ∃ socket ∈ s.sockets, k = socket ∨ k = socket.destroy := by
  obtain ⟨j, hj⟩ := List.getElem?_of_mem h
  rw [getElem?_settle, Option.map_eq_some_iff] at hj
  obtain ⟨socket, hsocket, rfl⟩ := hj
  refine ⟨socket, List.mem_of_getElem? hsocket, ?_⟩
  split
  · exact .inl rfl
  · exact .inr rfl

theorem Orderly.put (h : Orderly addresses s) (hi : s.sockets[i]? = some socket) (hf : Follows socket socket') :
    Orderly addresses (s.put i socket') where
  started := by
    rw [State.put, List.length_set]
    exact h.started
  hosts := by
    have hsame : (s.sockets.map Socket.host).set i socket.host = s.sockets.map Socket.host := by
      refine List.ext_getElem? fun j => ?_
      rw [List.getElem?_set]
      split
      · rename_i heq
        subst heq
        have hlt : i < (s.sockets.map Socket.host).length := by
          rw [List.length_map]
          exact (List.getElem?_eq_some_iff.mp hi).1
        rw [if_pos hlt, List.getElem?_map, hi]
        rfl
      · rfl
    rw [State.put, List.map_set, hf.host, hsame]
    exact h.hosts
  le := h.le
  timed k hk := by
    rcases mem_put hk with hk | rfl
    · exact h.timed k hk
    · exact hf.timed
  gone k hk := by
    rcases mem_put hk with hk | rfl
    · exact h.gone k hk
    · exact hf.gone

theorem Orderly.settle (h : Orderly addresses s) (winner : Option ℕ) : Orderly addresses (settle s winner) where
  started := by
    show s.started = (s.sockets.mapIdx _).length
    rw [List.length_mapIdx]
    exact h.started
  hosts := by
    refine (List.ext_getElem? fun j => ?_).trans h.hosts
    rw [List.getElem?_map, getElem?_settle, List.getElem?_map, Option.map_map]
    refine congrArg (Option.map · s.sockets[j]?) (funext fun socket => ?_)
    show Socket.host (if _ then _ else _) = _
    split <;> rfl
  le := h.le
  timed k hk hphase := by
    obtain ⟨socket, hsocket, rfl | rfl⟩ := mem_settle hk
    · exact h.timed k hsocket hphase
    · exact .inr rfl
  gone k hk hphase := by
    obtain ⟨socket, hsocket, rfl | rfl⟩ := mem_settle hk
    · exact h.gone k hsocket hphase
    · rfl

/-- The next address is tried, unless the promise is settled or there is none. -/
theorem start_cases (addresses : List String) (s : State) :
    (start addresses s = { s with staggerTimer := false } ∧ (s.settled = false → addresses.length ≤ s.started)) ∨
      ∃ host, s.settled = false ∧ addresses[s.started]? = some host ∧ start addresses s =
        { s with sockets := s.sockets ++ [⟨host, .connecting, false, true⟩], started := s.started + 1, staggerTimer := true } := by
  rw [start]
  cases hsettled : s.settled with
  | true => exact .inl ⟨rfl, fun h => by cases h⟩
  | false =>
      cases hhost : addresses[s.started]? with
      | none => exact .inl ⟨rfl, fun _ => List.getElem?_eq_none_iff.mp hhost⟩
      | some host => exact .inr ⟨host, rfl, rfl, rfl⟩

theorem Orderly.start (h : Orderly addresses s) : Orderly addresses (start addresses s) := by
  rcases start_cases addresses s with ⟨heq, -⟩ | ⟨host, -, hhost, heq⟩
  · rw [heq]
    exact ⟨h.started, h.hosts, h.le, h.timed, h.gone⟩
  · rw [heq]
    have hlt : s.started < addresses.length := (List.getElem?_eq_some_iff.mp hhost).1
    refine ⟨?_, ?_, hlt, fun k hk hphase => ?_, fun k hk hphase => ?_⟩
    · show s.started + 1 = (s.sockets ++ [_]).length
      rw [List.length_append, List.length_singleton, h.started]
    · show (s.sockets ++ [_]).map Socket.host = addresses.take (s.started + 1)
      rw [List.map_append, h.hosts, List.take_add_one, hhost]
      rfl
    · rcases List.mem_append.mp hk with hk | hk
      · exact h.timed k hk hphase
      · rw [List.mem_singleton.mp hk]
        exact .inl rfl
    · rcases List.mem_append.mp hk with hk | hk
      · exact h.gone k hk hphase
      · rw [List.mem_singleton.mp hk] at hphase
        cases hphase

/-! ### One event -/

theorem closed_put (hi : s.sockets[i]? = some socket) (socket' : Socket) : closed (s.put i socket') + (if socket.phase = .closed then 1 else 0) =
    closed s + if socket'.phase = .closed then 1 else 0 := by
  obtain ⟨hlt, hget⟩ := List.getElem?_eq_some_iff.mp hi
  have hone := List.boole_getElem_le_countP (p := fun socket : Socket => decide (socket.phase = .closed)) hlt
  rw [hget] at hone
  rw [closed, State.put, List.countP_set hlt, hget, closed]
  simp only [decide_eq_true_eq] at hone ⊢
  omega

theorem closed_le (s : State) : closed s ≤ s.sockets.length := List.countP_le_length

/-- If nothing is settled, the next address leaves something that may still connect. -/
theorem Pending.start (h : Orderly addresses s) (hsettled : s.settled = false) (hcalls : s.calls = []) (hfailed : s.failed = closed s)
    (hopen : closed s < s.started ∨ s.started < addresses.length)
    (hnone : ∀ socket ∈ s.sockets, socket.phase ≠ .connected) (hconnect : ∀ i, Event.connect i ∉ taken) :
    Pending taken (start addresses s) := by
  rcases start_cases addresses s with ⟨heq, hall⟩ | ⟨host, -, hhost, heq⟩
  · rw [heq]
    refine ⟨hsettled, hcalls, hfailed, ?_, hnone, hconnect⟩
    exact hopen.elim id fun hlt => absurd hlt (not_lt.mpr (hall hsettled))
  · rw [heq]
    have hclosed : closed { s with sockets := s.sockets ++ [⟨host, .connecting, false, true⟩], started := s.started + 1, staggerTimer := true } =
        closed s := by
      simp [closed, List.countP_append]
    have hle := closed_le s
    refine ⟨hsettled, hcalls, hfailed.trans hclosed.symm, ?_, fun k hk => ?_, hconnect⟩
    · rw [hclosed]
      show closed s < s.started + 1
      rw [h.started]
      omega
    · rcases List.mem_append.mp hk with hk | hk
      · exact hnone k hk
      · rw [List.mem_singleton.mp hk]
        simp

/-- What holds of the connections that were made holds after an event that is none. -/
theorem connect_append {e : Event} (he : ∀ j, e ≠ .connect j) (j : ℕ) : Event.connect j ∈ taken ++ [e] ↔ Event.connect j ∈ taken := by
  rw [List.mem_append, List.mem_singleton]
  exact or_iff_left fun heq => he j heq.symm

theorem Pending.not_settled (h : Pending taken s) : ¬ s.settled = true := by simp [h.settled]

/-- Only while nothing is settled can a socket connect. -/
theorem Sound.pending (h : Sound addresses taken s) (hi : s.sockets[i]? = some socket) (hphase : socket.phase = .connecting)
    (hdestroyed : socket.isDestroyed = false) : Pending taken s := by
  rcases h.outcome with hpending | ⟨j, hwon⟩ | hlost
  · exact hpending
  · by_cases heq : i = j
    · exact absurd hphase (hwon.winner socket (heq ▸ hi))
    · exact absurd (hwon.others i socket hi heq) (by simp [hdestroyed])
  · exact absurd (hlost.all_closed socket (List.mem_of_getElem? hi)) (by simp [hphase])

theorem Sound.connect (h : Sound addresses taken s) (hi : s.sockets[i]? = some socket) (hphase : socket.phase = .connecting)
    (hdestroyed : socket.isDestroyed = false) :
    Sound addresses (taken ++ [.connect i]) (onConnect (s.put i { socket with phase := .connected, timer := false }) i) := by
  have hpending := h.pending hi hphase hdestroyed
  have hput : Orderly addresses (s.put i { socket with phase := .connected, timer := false }) :=
    h.orderly.put hi ⟨rfl, nofun, id, nofun, nofun⟩
  have heq : onConnect (s.put i { socket with phase := .connected, timer := false }) i =
      settle (s.put i { socket with phase := .connected, timer := false }) (some i) := if_neg hpending.not_settled
  rw [heq]
  refine ⟨hput.settle _, .inr (.inl ⟨i, rfl, ?_, fun k hk => ?_, fun j k hj hne => ?_, fun j => ?_⟩)⟩
  · show s.calls ++ [Call.resolve i] = [.resolve i]
    rw [hpending.calls]
    rfl
  · rw [getElem?_settle, Option.map_eq_some_iff] at hk
    obtain ⟨socket', hsocket', rfl⟩ := hk
    rcases getElem?_put hsocket' with ⟨-, rfl⟩ | ⟨hne, -⟩
    · simp
    · exact absurd rfl hne
  · rw [getElem?_settle, Option.map_eq_some_iff] at hj
    obtain ⟨socket', -, rfl⟩ := hj
    rw [if_neg fun heq => hne (Option.some.inj heq).symm]
    rfl
  · rw [List.mem_append, List.mem_singleton]
    constructor
    · rintro (hmem | heq)
      · exact absurd hmem (hpending.no_connect j)
      · exact Event.connect.inj heq
    · rintro rfl
      exact .inr rfl

/-- A socket that is destroyed, by itself or by its timer. -/
theorem Sound.destroyed {e : Event} (h : Sound addresses taken s) (he : ∀ j, e ≠ .connect j) (hi : s.sockets[i]? = some socket)
    (hphase : socket'.phase = socket.phase) (hhost : socket'.host = socket.host) (hdestroyed : socket'.isDestroyed = true) :
    Sound addresses (taken ++ [e]) (s.put i socket') := by
  refine ⟨h.orderly.put hi ⟨hhost, fun hc => hphase ▸ hc, fun _ => hdestroyed, fun _ => .inr hdestroyed, fun _ => hdestroyed⟩, ?_⟩
  have hclosed : closed (s.put i socket') = closed s := by
    have hput := closed_put hi socket'
    rw [hphase] at hput
    exact Nat.add_right_cancel hput
  rcases h.outcome with hpending | ⟨j, hwon⟩ | hlost
  · refine .inl ⟨hpending.settled, hpending.calls, ?_, ?_, fun k hk => ?_, fun j => ?_⟩
    · rw [hclosed]
      exact hpending.failed
    · rw [hclosed]
      exact hpending.more
    · rcases mem_put hk with hk | rfl
      · exact hpending.none_connected k hk
      · rw [hphase]
        exact hpending.none_connected socket (List.mem_of_getElem? hi)
    · rw [connect_append he]
      exact hpending.no_connect j
  · refine .inr (.inl ⟨j, hwon.settled, hwon.calls, fun k hk => ?_, fun j' k hj' hne => ?_, fun j' => ?_⟩)
    · rcases getElem?_put hk with ⟨heq, rfl⟩ | ⟨-, hk⟩
      · rw [hphase]
        exact hwon.winner socket (heq ▸ hi)
      · exact hwon.winner k hk
    · rcases getElem?_put hj' with ⟨-, rfl⟩ | ⟨-, hj'⟩
      · exact hdestroyed
      · exact hwon.others j' k hj' hne
    · rw [connect_append he]
      exact hwon.connect_iff j'
  · refine .inr (.inr ⟨hlost.settled, hlost.calls, hlost.tried, fun k hk => ?_, fun j => ?_⟩)
    · rcases mem_put hk with hk | rfl
      · exact hlost.all_closed k hk
      · rw [hphase]
        exact hlost.all_closed socket (List.mem_of_getElem? hi)
    · rw [connect_append he]
      exact hlost.no_connect j

/-- A socket closes: it was the last one, or it was not, or nothing depends on it any more. -/
theorem Sound.close (h : Sound addresses taken s) (hi : s.sockets[i]? = some socket) (hopen : socket.phase ≠ .closed)
    (hdestroyed : socket.isDestroyed = true) (hafter : socket' = { socket with phase := .closed, timer := false }) :
    Sound addresses (taken ++ [.close i]) (onClose addresses (s.put i socket')) := by
  have hphase : socket'.phase = .closed := by rw [hafter]
  have hput : Orderly addresses (s.put i socket') := by
    rw [hafter]
    exact h.orderly.put hi ⟨rfl, nofun, id, nofun, fun _ => hdestroyed⟩
  have hclosed := closed_put hi socket'
  rw [if_neg hopen, if_pos hphase, Nat.add_zero] at hclosed
  have he : ∀ j, Event.close i ≠ .connect j := nofun
  rcases h.outcome with hpending | ⟨j, hwon⟩ | hlost
  · have hfailed : s.failed + 1 = closed (s.put i socket') := by rw [hclosed, hpending.failed]
    have hconnect : ∀ j, Event.connect j ∉ taken ++ [.close i] := by
      intro j
      rw [connect_append he]
      exact hpending.no_connect j
    have hle := closed_le (s.put i socket')
    rw [← hput.started] at hle
    have hstarted : (s.put i socket').started ≤ addresses.length := h.orderly.le
    have hsettled : ¬ (s.put i socket').settled = true := hpending.not_settled
    rw [onClose, if_neg hsettled]
    split
    · rename_i hlast
      have hlast : s.failed + 1 = addresses.length := hlast
      have hall : ∀ k ∈ (s.put i socket').sockets, k.phase = .closed := by
        have hcount : (s.put i socket').sockets.countP (·.phase = .closed) = (s.put i socket').sockets.length := by
          have hstarted' := hput.started
          show closed (s.put i socket') = _
          omega
        exact fun k hk => of_decide_eq_true (List.countP_eq_length.mp hcount k hk)
      have hafter : Orderly addresses { s.put i socket' with failed := (s.put i socket').failed + 1 } :=
        ⟨hput.started, hput.hosts, hput.le, hput.timed, hput.gone⟩
      refine ⟨hafter.settle none, .inr (.inr ⟨rfl, ?_, ?_, fun k hk => ?_, hconnect⟩)⟩
      · show s.calls ++ [Call.reject] = [.reject]
        rw [hpending.calls]
        rfl
      · show (s.put i socket').started = addresses.length
        omega
      · obtain ⟨k', hk', rfl | rfl⟩ := mem_settle hk
        · exact hall k hk'
        · exact hall k' hk'
    · rename_i hmore
      have hmore : s.failed + 1 ≠ addresses.length := hmore
      have hafter : Orderly addresses { s.put i socket' with failed := (s.put i socket').failed + 1 } :=
        ⟨hput.started, hput.hosts, hput.le, hput.timed, hput.gone⟩
      refine ⟨hafter.start, .inl (Pending.start hafter hpending.settled hpending.calls hfailed ?_ (fun k hk => ?_) hconnect)⟩
      · show closed (s.put i socket') < (s.put i socket').started ∨ (s.put i socket').started < addresses.length
        omega
      · rcases mem_put hk with hk | rfl
        · exact hpending.none_connected k hk
        · simp [hphase]
  · have hsettled : (s.put i socket').settled = true := hwon.settled
    rw [onClose, if_pos hsettled]
    refine ⟨hput, .inr (.inl ⟨j, hwon.settled, hwon.calls, fun k hk => ?_, fun j' k hj' hne => ?_, fun j' => ?_⟩)⟩
    · rcases getElem?_put hk with ⟨-, rfl⟩ | ⟨-, hk⟩
      · simp [hphase]
      · exact hwon.winner k hk
    · rcases getElem?_put hj' with ⟨heq, rfl⟩ | ⟨-, hj'⟩
      · exact hput.gone k (List.mem_of_getElem? hj') hphase
      · exact hwon.others j' k hj' hne
    · rw [connect_append he]
      exact hwon.connect_iff j'
  · exact absurd (hlost.all_closed socket (List.mem_of_getElem? hi)) hopen

theorem Sound.stagger (h : Sound addresses taken s) : Sound addresses (taken ++ [.stagger]) (start addresses s) := by
  refine ⟨h.orderly.start, ?_⟩
  have he : ∀ j, Event.stagger ≠ .connect j := nofun
  rcases h.outcome with hpending | ⟨j, hwon⟩ | hlost
  · refine .inl (Pending.start h.orderly hpending.settled hpending.calls hpending.failed (.inl hpending.more) hpending.none_connected fun j => ?_)
    rw [connect_append he]
    exact hpending.no_connect j
  · have hstart : start addresses s = { s with staggerTimer := false } := if_pos hwon.settled
    rw [hstart]
    refine .inr (.inl ⟨j, hwon.settled, hwon.calls, hwon.winner, hwon.others, fun j' => ?_⟩)
    rw [connect_append he]
    exact hwon.connect_iff j'
  · have hstart : start addresses s = { s with staggerTimer := false } := if_pos hlost.settled
    rw [hstart]
    refine .inr (.inr ⟨hlost.settled, hlost.calls, hlost.tried, hlost.all_closed, fun j => ?_⟩)
    rw [connect_append he]
    exact hlost.no_connect j

/-- What an event does, by the socket it is of. -/
theorem step_cases {e : Event} (h : step addresses s e = some s') :
    (∃ i socket, e = .connect i ∧ s.sockets[i]? = some socket ∧ socket.phase = .connecting ∧ socket.isDestroyed = false ∧
      s' = onConnect (s.put i { socket with phase := .connected, timer := false }) i) ∨
    (∃ i socket, e = .error i ∧ s.sockets[i]? = some socket ∧ socket.phase ≠ .closed ∧ socket.isDestroyed = false ∧
      s' = s.put i socket.destroy) ∨
    (∃ i socket, e = .close i ∧ s.sockets[i]? = some socket ∧ socket.phase ≠ .closed ∧ socket.isDestroyed = true ∧
      s' = onClose addresses (s.put i { socket with phase := .closed, timer := false })) ∨
    (∃ i socket, e = .timeout i ∧ s.sockets[i]? = some socket ∧ socket.timer = true ∧ s' = s.put i { socket.destroy with timer := false }) ∨
    e = .stagger ∧ s.staggerTimer = true ∧ s' = start addresses s := by
  cases e with
  | connect i =>
      obtain ⟨socket, hi, hif⟩ := Option.bind_eq_some_iff.mp h
      obtain ⟨hguard, heq⟩ := Option.ite_none_right_eq_some.mp hif
      exact .inl ⟨i, socket, rfl, hi, hguard.1, hguard.2, (Option.some.inj heq).symm⟩
  | error i =>
      obtain ⟨socket, hi, hif⟩ := Option.bind_eq_some_iff.mp h
      obtain ⟨hguard, heq⟩ := Option.ite_none_right_eq_some.mp hif
      exact .inr (.inl ⟨i, socket, rfl, hi, hguard.1, hguard.2, (Option.some.inj heq).symm⟩)
  | close i =>
      obtain ⟨socket, hi, hif⟩ := Option.bind_eq_some_iff.mp h
      obtain ⟨hguard, heq⟩ := Option.ite_none_right_eq_some.mp hif
      exact .inr (.inr (.inl ⟨i, socket, rfl, hi, hguard.1, hguard.2, (Option.some.inj heq).symm⟩))
  | timeout i =>
      obtain ⟨socket, hi, hif⟩ := Option.bind_eq_some_iff.mp h
      obtain ⟨hguard, heq⟩ := Option.ite_none_right_eq_some.mp hif
      exact .inr (.inr (.inr (.inl ⟨i, socket, rfl, hi, hguard, (Option.some.inj heq).symm⟩)))
  | stagger =>
      obtain ⟨hguard, heq⟩ := Option.ite_none_right_eq_some.mp h
      exact .inr (.inr (.inr (.inr ⟨rfl, hguard, (Option.some.inj heq).symm⟩)))

/-- **One event keeps everything in order.** -/
theorem Sound.step {e : Event} (h : Sound addresses taken s) (hstep : step addresses s e = some s') : Sound addresses (taken ++ [e]) s' := by
  rcases step_cases hstep with ⟨i, socket, rfl, hi, hphase, hdestroyed, rfl⟩ | ⟨i, socket, rfl, hi, -, -, rfl⟩ |
    ⟨i, socket, rfl, hi, hopen, hdestroyed, rfl⟩ | ⟨i, socket, rfl, hi, -, rfl⟩ | ⟨rfl, -, rfl⟩
  · exact h.connect hi hphase hdestroyed
  · exact h.destroyed nofun hi rfl rfl rfl
  · exact h.close hi hopen hdestroyed rfl
  · exact h.destroyed nofun hi rfl rfl rfl
  · exact h.stagger

theorem Sound.connectFirst (addresses : List String) : Sound addresses [] (connectFirst addresses) := by
  rw [Edge.connectFirst]
  split
  · rename_i hnone
    exact ⟨⟨rfl, by simp [settle], Nat.zero_le _, by simp [settle], by simp [settle]⟩,
      .inr (.inr ⟨rfl, rfl, hnone.symm, by simp [settle], by simp⟩)⟩
  · rename_i hsome
    have hempty : Orderly addresses ⟨[], 0, 0, false, false, []⟩ := ⟨rfl, rfl, Nat.zero_le _, by simp, by simp⟩
    exact ⟨hempty.start, .inl (Pending.start hempty rfl rfl rfl (.inr (Nat.pos_of_ne_zero hsome)) (by simp) (by simp))⟩

/-! ### Nothing goes on for ever -/

theorem weight_put (hi : s.sockets[i]? = some socket) :
    weight addresses (s.put i socket') + socket.weight = weight addresses s + socket'.weight := by
  have hsum := sum_map_set Socket.weight hi socket'
  have hput : weight addresses (s.put i socket') =
      5 * (addresses.length - s.started) + ((s.sockets.set i socket').map Socket.weight).sum + s.staggerTimer.toNat := rfl
  rw [hput, weight]
  omega

theorem weight_put_lt (hi : s.sockets[i]? = some socket) (h : socket'.weight < socket.weight) :
    weight addresses (s.put i socket') < weight addresses s := by
  have hput : weight addresses (s.put i socket') + socket.weight = weight addresses s + socket'.weight := weight_put hi
  omega

theorem weight_destroy (socket : Socket) : socket.destroy.weight ≤ socket.weight := by
  simp [Socket.weight, Socket.destroy]

theorem weight_settle (s : State) (winner : Option ℕ) : weight addresses (settle s winner) ≤ weight addresses s := by
  have hsum : ((settle s winner).sockets.map Socket.weight).sum ≤ (s.sockets.map Socket.weight).sum := by
    refine sum_map_mapIdx_le Socket.weight s.sockets fun j socket => ?_
    split
    · exact le_refl _
    · exact weight_destroy socket
  have hsettle : weight addresses (settle s winner) =
      5 * (addresses.length - s.started) + ((settle s winner).sockets.map Socket.weight).sum + 0 := rfl
  rw [hsettle, weight]
  omega

theorem weight_start (s : State) : weight addresses (start addresses s) + s.staggerTimer.toNat ≤ weight addresses s := by
  rcases start_cases addresses s with ⟨heq, -⟩ | ⟨host, -, hhost, heq⟩
  · rw [heq, weight, weight]
    simp
  · have hlt : s.started < addresses.length := (List.getElem?_eq_some_iff.mp hhost).1
    rw [heq, weight, weight]
    simp only [List.map_append, List.sum_append, List.map_cons, List.map_nil, List.sum_cons, List.sum_nil, Socket.weight]
    have hconnecting : Phase.connecting.weight = 2 := rfl
    simp only [hconnecting, Bool.not_false, Bool.toNat_true]
    omega

theorem weight_onConnect (s : State) (i : ℕ) : weight addresses (onConnect s i) ≤ weight addresses s := by
  rw [onConnect]
  split
  · exact le_refl _
  · exact weight_settle s _

theorem weight_onClose (s : State) : weight addresses (onClose addresses s) ≤ weight addresses s := by
  rw [onClose]
  split
  · exact le_refl _
  · split
    · exact weight_settle { s with failed := s.failed + 1 } none
    · exact (Nat.le_add_right _ _).trans (weight_start { s with failed := s.failed + 1 })

/-- **Every event leaves less that can still happen.** -/
theorem weight_step {e : Event} (hstep : step addresses s e = some s') : weight addresses s' < weight addresses s := by
  rcases step_cases hstep with ⟨i, socket, rfl, hi, hphase, -, rfl⟩ | ⟨i, socket, rfl, hi, -, hdestroyed, rfl⟩ |
    ⟨i, socket, rfl, hi, hopen, -, rfl⟩ | ⟨i, socket, rfl, hi, htimer, rfl⟩ | ⟨rfl, htimer, rfl⟩
  · have hless : Socket.weight { socket with phase := .connected, timer := false } < socket.weight := by
      simp [Socket.weight, Phase.weight, hphase]
      omega
    exact (weight_onConnect _ i).trans_lt (weight_put_lt hi hless)
  · have hless : socket.destroy.weight < socket.weight := by
      simp [Socket.weight, Socket.destroy, hdestroyed]
    exact weight_put_lt hi hless
  · have hless : Socket.weight { socket with phase := .closed, timer := false } < socket.weight := by
      have hpos : 0 < socket.phase.weight := by
        cases hphase : socket.phase with
        | connecting => decide
        | connected => decide
        | closed => exact absurd hphase hopen
      have hclosed : Phase.closed.weight = 0 := rfl
      simp only [Socket.weight, hclosed, Bool.toNat_false]
      omega
    exact (weight_onClose _).trans_lt (weight_put_lt hi hless)
  · have hless : Socket.weight { socket.destroy with timer := false } < socket.weight := by
      simp only [Socket.weight, Socket.destroy, htimer, Bool.not_true, Bool.toNat_true, Bool.toNat_false]
      omega
    exact weight_put_lt hi hless
  · have hstart : weight addresses (start addresses s) + s.staggerTimer.toNat ≤ weight addresses s := weight_start s
    rw [htimer, Bool.toNat_true] at hstart
    omega

theorem weight_connectFirst (addresses : List String) : weight addresses (connectFirst addresses) ≤ 5 * addresses.length := by
  rw [connectFirst]
  split
  · exact weight_settle _ _
  · exact (Nat.le_add_right _ _).trans (weight_start _)

theorem run_length {events : List Event} (h : run (step addresses) s events = some s') : events.length + weight addresses s' ≤ weight addresses s := by
  induction events generalizing s with
  | nil =>
      cases h
      simp
  | cons e events ih =>
      obtain ⟨s₁, hstep, hrest⟩ := run_cons_eq_some.mp h
      have hless := weight_step hstep
      have hmore := ih hrest
      rw [List.length_cons]
      omega

/-! ### Whole runs -/

theorem sound_of_run {events : List Event} (h : run (step addresses) (connectFirst addresses) events = some s) : Sound addresses events s :=
  run_splits (P := Sound addresses) (Sound.connectFirst addresses) (fun _ _ _ _ _ _ _ hsound hstep => hsound.step hstep) h

/-- A settled promise stays as it is, and no socket is opened. -/
theorem settled_step {e : Event} (hsettled : s.settled = true) (hstep : step addresses s e = some s') :
    s'.settled = true ∧ s'.calls = s.calls ∧ s'.sockets.length = s.sockets.length := by
  have hput : ∀ i socket, (s.put i socket).settled = true ∧ (s.put i socket).calls = s.calls ∧
      (s.put i socket).sockets.length = s.sockets.length := fun i socket => ⟨hsettled, rfl, List.length_set⟩
  rcases step_cases hstep with ⟨i, socket, rfl, -, -, -, rfl⟩ | ⟨i, socket, rfl, -, -, -, rfl⟩ |
    ⟨i, socket, rfl, -, -, -, rfl⟩ | ⟨i, socket, rfl, -, -, rfl⟩ | ⟨rfl, -, rfl⟩
  · rw [onConnect, if_pos (show (s.put i _).settled = true from hsettled)]
    exact hput i _
  · exact hput i _
  · rw [onClose, if_pos (show (s.put i _).settled = true from hsettled)]
    exact hput i _
  · exact hput i _
  · rw [start, if_pos hsettled]
    exact ⟨hsettled, rfl, rfl⟩

/-- While nothing is settled, some socket has its timer or its closing before it. -/
theorem Pending.goes_on (horderly : Orderly addresses s) (h : Pending taken s) :
    ∃ i, step addresses s (.timeout i) ≠ none ∨ step addresses s (.close i) ≠ none := by
  obtain ⟨socket, hmem, hopen⟩ : ∃ socket ∈ s.sockets, socket.phase ≠ .closed := by
    by_contra hall
    have hclosed : closed s = s.sockets.length := by
      refine List.countP_eq_length.mpr fun socket hsocket => decide_eq_true ?_
      by_contra hopen
      exact hall ⟨socket, hsocket, hopen⟩
    have hmore := h.more
    rw [hclosed, horderly.started] at hmore
    exact Nat.lt_irrefl _ hmore
  have hphase : socket.phase = .connecting := by
    cases hphase : socket.phase with
    | connecting => rfl
    | connected => exact absurd hphase (h.none_connected socket hmem)
    | closed => exact absurd hphase hopen
  obtain ⟨i, hi⟩ := List.getElem?_of_mem hmem
  refine ⟨i, (horderly.timed socket hmem hphase).imp (fun htimer => ?_) fun hdestroyed => ?_⟩
  · simp [step, hi, htimer]
  · simp [step, hi, hopen, hdestroyed]

/-- **The promise is settled once, for the first socket that connects**, or when every address has failed, and behind it everything is
closed. -/
theorem connectFirst_settles (addresses : List String) (events : List Event) (s : State)
    (h : run (step addresses) (connectFirst addresses) events = some s) :
    s.calls.length ≤ 1 ∧ events.length ≤ 5 * addresses.length ∧
      ((∀ i, step addresses s (.timeout i) = none ∧ step addresses s (.close i) = none) → s.calls.length = 1) ∧
      (∀ i, Event.connect i ∈ events ↔ s.calls = [.resolve i]) ∧
      (s.calls = [.reject] → s.sockets.map Socket.host = addresses ∧ (∀ socket ∈ s.sockets, socket.phase = .closed) ∧
        ∀ i, Event.connect i ∉ events) ∧
      (s.calls ≠ [] → (∀ i socket, s.sockets[i]? = some socket → s.calls ≠ [.resolve i] → socket.isDestroyed = true) ∧
        ∀ more s', run (step addresses) s more = some s' → s'.calls = s.calls ∧ s'.sockets.length = s.sockets.length) := by
  have hsound := sound_of_run h
  have hlength : events.length ≤ 5 * addresses.length := by
    have hrun := run_length h
    have hstart := weight_connectFirst addresses
    omega
  -- what a settled promise keeps
  have hkept : s.settled = true → ∀ more s', run (step addresses) s more = some s' → s'.calls = s.calls ∧ s'.sockets.length = s.sockets.length := by
    intro hsettled more s' hmore
    refine (run_invariant (P := fun t : State => t.settled = true ∧ t.calls = s.calls ∧ t.sockets.length = s.sockets.length) ?_
      ⟨hsettled, rfl, rfl⟩ hmore).2
    rintro t e t' ⟨ht, hcalls, hopened⟩ hstep
    obtain ⟨ht', hcalls', hopened'⟩ := settled_step ht hstep
    exact ⟨ht', hcalls'.trans hcalls, hopened'.trans hopened⟩
  rcases hsound.outcome with hpending | ⟨i, hwon⟩ | hlost
  · refine ⟨by simp [hpending.calls], hlength, fun hrest => ?_, fun i => ?_, fun hcalls => ?_, fun hcalls => absurd hpending.calls hcalls⟩
    · obtain ⟨i, hnext⟩ := hpending.goes_on hsound.orderly
      exact absurd (hrest i) (fun hnone => hnext.elim (fun ht => ht hnone.1) fun hc => hc hnone.2)
    · exact ⟨fun hmem => absurd hmem (hpending.no_connect i), fun hcalls => by rw [hpending.calls] at hcalls; cases hcalls⟩
    · rw [hpending.calls] at hcalls
      cases hcalls
  · refine ⟨by simp [hwon.calls], hlength, fun _ => by simp [hwon.calls], fun j => ?_, fun hcalls => ?_, fun _ => ⟨fun j socket hj hne => ?_, hkept hwon.settled⟩⟩
    · rw [hwon.connect_iff, hwon.calls]
      exact ⟨fun heq => by rw [heq], fun heq => (Call.resolve.inj (List.cons.inj heq).1).symm⟩
    · rw [hwon.calls] at hcalls
      cases hcalls
    · refine hwon.others j socket hj fun heq => hne ?_
      rw [hwon.calls, heq]
  · have hhosts := hsound.orderly.hosts
    rw [hlost.tried, List.take_length] at hhosts
    refine ⟨by simp [hlost.calls], hlength, fun _ => by simp [hlost.calls], fun j => ?_, fun _ => ⟨hhosts, hlost.all_closed, hlost.no_connect⟩,
      fun _ => ⟨fun j socket hj _ => ?_, hkept hlost.settled⟩⟩
    · refine ⟨fun hmem => absurd hmem (hlost.no_connect j), fun hcalls => ?_⟩
      rw [hlost.calls] at hcalls
      cases hcalls
    · exact hsound.orderly.gone socket (List.mem_of_getElem? hj) (hlost.all_closed socket (List.mem_of_getElem? hj))

/-- The first of two addresses does not answer in time, and the second does. -/
theorem second_answers : run (step ["10.0.0.2", "10.0.0.3"]) (connectFirst ["10.0.0.2", "10.0.0.3"]) [.stagger, .timeout 0, .connect 1, .close 0] =
    some ⟨[⟨"10.0.0.2", .closed, true, false⟩, ⟨"10.0.0.3", .connected, false, false⟩], 2, 0, true, false, [.resolve 1]⟩ ∧
      ([Call.resolve 1] : List Call).length ≤ 1 :=
  have hrun := show run (step ["10.0.0.2", "10.0.0.3"]) (connectFirst ["10.0.0.2", "10.0.0.3"]) [.stagger, .timeout 0, .connect 1, .close 0] =
    some ⟨[⟨"10.0.0.2", .closed, true, false⟩, ⟨"10.0.0.3", .connected, false, false⟩], 2, 0, true, false, [.resolve 1]⟩ from by decide
  ⟨hrun, (connectFirst_settles _ _ _ hrun).1⟩

end Pokyh.Node.Edge

import Pokyh.Cluster.Nonces
import Pokyh.Cluster.ServerNames
import Pokyh.Lib.Entries
import Pokyh.Lib.Runs

/-!
# Cluster — Relay

The relay (`createRelay` in `relay.mjs`): nodes park connections under a route, a client that names a route in its `ClientHello` is spliced
onto one of them.

A state has the relay's own (`routes`, the entries with what is parked and who waits, the nonces, the count of splices) and what its closures
and the sockets hold: the calls that wait, the handlers of `close`, the timers that remove a route, which sockets are destroyed, and the
splices that are open.  It also keeps what was asked for, accepted and spliced so far.

* `step_inv`: what each step keeps.
* `relay_safe`: **a client is only ever spliced to a connection that was parked under the name it asked for**, with a proof of the secret for
  that name and that node's key; no connection is spliced twice; the connections of a name are all of one node; the bounds are kept.
-/

namespace Pokyh.Cluster.Relay
open Pokyh.Lib Pokyh.Cluster.ServerNames

abbrev Name := List Char

/-! ### The relay and its state -/

/-- The settings, and the relay's secret as the proofs it makes. -/
structure Relay where
  /-- Empty if there is none. -/
  domain : Name
  maxRoutes : ℕ
  maxParked : ℕ
  maxSplices : ℕ
  parkProof : Name → ℤ → List Char → String → Bytes
  /-- `Buffer.from(mac, 'base64url')` -/
  fromBase64url : List Char → Bytes

def CONTROL_NAME : Name := "relay-control.pokyh".toList

def Relay.controlNames (relay : Relay) : List Name :=
  CONTROL_NAME :: if relay.domain ≠ [] then ["relay-control.".toList ++ relay.domain] else []

def Relay.allowedRoute (relay : Relay) (name : Name) : Bool :=
  if !isServerName name || relay.controlNames.contains name then false
  else ".pokyh-relay".toList <:+ name || (relay.domain ≠ [] && '.' :: relay.domain <:+ name)

/-- The line with which a connection is parked; a field is none if it is not of its type. -/
structure ParkLine where
  op : Option String
  route : Option Name
  t : Option ℤ
  n : Option (List Char)
  mac : Option (List Char)
  deriving DecidableEq

/-- `/^[A-Za-z0-9_-]{16,64}$/` -/
def isNonce (n : List Char) : Bool := 16 ≤ n.length && n.length ≤ 64 && n.all fun c => c.isAlphanum || c = '_' || c = '-'

/-- A route's entry, and the route it was made for. -/
structure Entry where
  route : Name
  pin : String
  parked : List ℕ
  waiting : List ℕ
  deriving DecidableEq

/-- A connection that was parked, with what it showed. -/
structure Parked where
  control : ℕ
  route : Name
  pin : String
  t : ℤ
  n : List Char
  mac : List Char
  deriving DecidableEq

structure Splice where
  client : ℕ
  name : Name
  control : ℕ
  deriving DecidableEq

/-- A call of `route` that waits for a connection. -/
structure Call where
  name : Name
  entry : ℕ

structure State where
  routes : Entries Name ℕ
  /-- Every entry that was made, by its number. -/
  entries : List Entry
  nonces : Nonces.Seen
  splices : ℕ
  calls : Entries ℕ Call
  /-- The handlers of `close`: a connection with its route and entry. -/
  handlers : List (ℕ × Name × ℕ)
  timers : List (Name × ℕ)
  destroyed : List ℕ
  gone : List ℕ
  live : List Splice
  asked : List (ℕ × Name)
  accepted : List Parked
  spliced : List Splice

def init : State := ⟨.empty, [], [], 0, .empty, [], [], [], [], [], [], [], []⟩

/-! ### Parking -/

inductive Answer where
  | ok
  | refused (error : String)
  deriving DecidableEq

/-- What is said of the line's form; a proof that is there has all of its fields. -/
def Relay.readLine (relay : Relay) (control : ℕ) (nodePin : String) (line : Option ParkLine) : Except String Parked :=
  match line with
  | none => .error "protocol"
  | some line =>
      match line.op, line.route, line.t, line.n, line.mac with
      | some op, some route, some t, some n, some mac =>
          if op ≠ "park" || !relay.allowedRoute route || !isNonce n then .error "protocol"
          else if relay.fromBase64url mac ≠ relay.parkProof route t n nodePin then .error "rejected"
          else .ok ⟨control, route, nodePin, t, n, mac⟩
      | _, _, _, _, _ => .error "protocol"

def State.modifyEntry (s : State) (i : ℕ) (f : Entry → Entry) : State := { s with entries := s.entries.modify i f }

/-- The entry of a route, made if there is none and there may be one more. -/
def Relay.entryFor (relay : Relay) (s : State) (p : Parked) : Except String (State × ℕ) :=
  match s.routes.get? p.route with
  | some i =>
      match s.entries[i]? with
      | some entry => if entry.pin ≠ p.pin && !entry.parked.isEmpty then .error "route-in-use" else .ok (s, i)
      | none => .ok (s, i)
  | none =>
      if s.routes.keys.length ≥ relay.maxRoutes then .error "full"
      else .ok ({ s with
        entries := s.entries ++ [⟨p.route, p.pin, [], []⟩]
        routes := s.routes.set p.route s.entries.length }, s.entries.length)

/-- A connection is parked at its entry, if there is room; one of those who wait is woken. -/
def Relay.addParked (relay : Relay) (s : State) (p : Parked) (i : ℕ) : Answer × State :=
  let s := s.modifyEntry i fun entry => { entry with pin := p.pin }
  match s.entries[i]? with
  | none => (.ok, s)
  | some entry =>
      if entry.parked.length ≥ relay.maxParked then (.refused "full", s)
      else
        let s := s.modifyEntry i fun entry => { entry with parked := entry.parked ++ [p.control], waiting := entry.waiting.tail }
        (.ok, { s with handlers := s.handlers ++ [(p.control, p.route, i)], accepted := s.accepted ++ [p] })

/-- `park`, from the line on. -/
def Relay.park (relay : Relay) (s : State) (control : ℕ) (nodePin : Option String) (line : Option ParkLine) (clock now : ℤ) : Answer × State :=
  match nodePin with
  | none => (.refused "certificate", s)
  | some nodePin =>
      match relay.readLine control nodePin line with
      | .error error => (.refused error, s)
      | .ok p =>
          match Nonces.park s.nonces none none ⟨String.ofList p.route, p.t, String.ofList p.n⟩ clock now with
          | (.refused error, nonces) => (.refused error, { s with nonces := nonces })
          | (.ok, nonces) =>
              match relay.entryFor { s with nonces := nonces } p with
              | .error error => (.refused error, { s with nonces := nonces })
              | .ok (s, i) => relay.addParked s p i

/-! ### Splicing -/

def State.takeParked (s : State) (i : ℕ) : Option ℕ × State :=
  match s.entries[i]? with
  | none => (none, s)
  | some entry =>
      let left := entry.parked.dropWhile (· ∈ s.destroyed)
      (left.head?, s.modifyEntry i fun entry => { entry with parked := left.tail })

def State.destroyClient (s : State) (client : ℕ) : State := { s with gone := client :: s.gone }

def State.destroyControl (s : State) (control : ℕ) : State := { s with destroyed := control :: s.destroyed }

/-- `route`, once it has looked for a parked connection. -/
def Relay.connect (relay : Relay) (s : State) (client : ℕ) (name : Name) (parked : Option ℕ) : State :=
  match parked with
  | none => s.destroyClient client
  | some control =>
      if client ∈ s.gone then (s.destroyClient client).destroyControl control
      else if s.splices ≥ relay.maxSplices then (s.destroyClient client).destroyControl control
      else { s with splices := s.splices + 1, live := ⟨client, name, control⟩ :: s.live, spliced := ⟨client, name, control⟩ :: s.spliced }

def Relay.route (relay : Relay) (s : State) (client : ℕ) (name : Name) : State :=
  match s.routes.get? name with
  | none => s.destroyClient client
  | some i =>
      match s.takeParked i with
      | (some control, s) => relay.connect s client name (some control)
      | (none, s) =>
          { s.modifyEntry i fun entry => { entry with waiting := entry.waiting ++ [client] } with calls := s.calls.set client ⟨name, i⟩ }

/-! ### Steps -/

inductive Action where
  /-- A connection names a server in its first bytes. -/
  | hello (client : ℕ) (name : Name)
  /-- A call that waits goes on: it was woken, or its time is over. -/
  | resume (client : ℕ)
  | clientGone (client : ℕ)
  | park (control : ℕ) (nodePin : Option String) (line : Option ParkLine) (clock now : ℤ)
  /-- The node closes a connection, it fails, or it sends something while it is parked. -/
  | controlGone (control : ℕ)
  /-- `close` of a connection that was parked. -/
  | controlClosed (control : ℕ) (name : Name) (entry : ℕ)
  /-- The timer that removes a route. -/
  | timer (name : Name) (entry : ℕ)
  /-- Either side closes, or neither has sent anything for too long. -/
  | spliceEnds (splice : Splice)

def Relay.step (relay : Relay) (s : State) : Action → Option State
  | .hello client name =>
      if client ∈ s.asked.map Prod.fst then none
      else
        let s := { s with asked := s.asked ++ [(client, name)] }
        if relay.controlNames.contains name then some s
        else if relay.allowedRoute name then some (relay.route s client name)
        else some (s.destroyClient client)
  | .resume client =>
      (s.calls.get? client).map fun call =>
        let (parked, s) := { s with calls := s.calls.delete client }.takeParked call.entry
        relay.connect s client call.name parked
  | .clientGone client => some (s.destroyClient client)
  | .park control nodePin line clock now =>
      if control ∈ s.accepted.map Parked.control then none else some (relay.park s control nodePin line clock now).2
  | .controlGone control => some (s.destroyControl control)
  | .controlClosed control name i =>
      if control ∈ s.destroyed ∧ (control, name, i) ∈ s.handlers then
        let s := { s with handlers := s.handlers.erase (control, name, i) }
        let s := s.modifyEntry i fun entry => { entry with parked := entry.parked.erase control }
        some (if s.entries[i]?.any fun entry => entry.parked.isEmpty && entry.waiting.isEmpty then { s with timers := s.timers ++ [(name, i)] }
          else s)
      else none
  | .timer name i =>
      if (name, i) ∈ s.timers then
        let s := { s with timers := s.timers.erase (name, i) }
        some (if s.routes.get? name = some i ∧ s.entries[i]?.any (fun entry => entry.parked.isEmpty) then
            { s with routes := s.routes.delete name }
          else s)
      else none
  | .spliceEnds splice =>
      if splice ∈ s.live then
        some ({ s with splices := s.splices - 1, live := s.live.erase splice }.destroyClient splice.client |>.destroyControl splice.control)
      else none

/-! ### What every state keeps -/

/-- What a connection showed is right: a proof for this route and this key. -/
structure Relay.Proven (relay : Relay) (p : Parked) : Prop where
  allowed : relay.allowedRoute p.route = true
  nonce : isNonce p.n = true
  mac : relay.fromBase64url p.mac = relay.parkProof p.route p.t p.n p.pin

structure Inv (relay : Relay) (s : State) : Prop where
  routes : ∀ name i, s.routes.get? name = some i → ∃ e, s.entries[i]? = some e ∧ e.route = name
  current : ∀ (i : ℕ) e, s.entries[i]? = some e → e.parked ≠ [] → s.routes.get? e.route = some i
  parked : ∀ (i : ℕ) e, s.entries[i]? = some e → ∀ c ∈ e.parked, ∃ p ∈ s.accepted, p.control = c ∧ p.route = e.route ∧ p.pin = e.pin
  parkedOnce : ∀ (i : ℕ) e, s.entries[i]? = some e → e.parked.Nodup
  parkedFree : ∀ (i : ℕ) e, s.entries[i]? = some e → ∀ c ∈ e.parked, c ∉ s.spliced.map Splice.control
  maxParked : ∀ (i : ℕ) e, s.entries[i]? = some e → e.parked.length ≤ relay.maxParked
  maxRoutes : s.routes.keys.length ≤ relay.maxRoutes
  acceptedOnce : (s.accepted.map Parked.control).Nodup
  proven : ∀ p ∈ s.accepted, relay.Proven p
  splicedTo : ∀ sp ∈ s.spliced, (sp.client, sp.name) ∈ s.asked ∧ ∃ p ∈ s.accepted, p.control = sp.control ∧ p.route = sp.name
  controlsOnce : (s.spliced.map Splice.control).Nodup
  clientsOnce : (s.spliced.map Splice.client).Nodup
  askedOnce : (s.asked.map Prod.fst).Nodup
  calls : ∀ client call, s.calls.get? client = some call →
    (client, call.name) ∈ s.asked ∧ client ∉ s.spliced.map Splice.client ∧ ∃ e, s.entries[call.entry]? = some e ∧ e.route = call.name
  live : s.live.Nodup ∧ ∀ sp ∈ s.live, sp ∈ s.spliced
  count : s.splices = s.live.length
  maxSplices : s.splices ≤ relay.maxSplices

variable {relay : Relay} {s s' : State}

theorem inv_init (relay : Relay) : Inv relay init where
  routes := nofun
  current := nofun
  parked := nofun
  parkedOnce := nofun
  parkedFree := nofun
  maxParked := nofun
  maxRoutes := Nat.zero_le _
  acceptedOnce := .nil
  proven := nofun
  splicedTo := nofun
  controlsOnce := .nil
  clientsOnce := .nil
  askedOnce := .nil
  calls := nofun
  live := ⟨.nil, nofun⟩
  count := rfl
  maxSplices := Nat.zero_le _

/-- The sockets that are destroyed, the handlers, the timers and the nonces are no part of it. -/
theorem Inv.other (h : Inv relay s) (nonces : Nonces.Seen) (handlers : List (ℕ × Name × ℕ)) (timers : List (Name × ℕ)) (destroyed gone : List ℕ) :
    Inv relay { s with nonces := nonces, handlers := handlers, timers := timers, destroyed := destroyed, gone := gone } :=
  ⟨h.routes, h.current, h.parked, h.parkedOnce, h.parkedFree, h.maxParked, h.maxRoutes, h.acceptedOnce, h.proven, h.splicedTo, h.controlsOnce,
    h.clientsOnce, h.askedOnce, h.calls, h.live, h.count, h.maxSplices⟩

theorem entries_modifyEntry {i j : ℕ} {f : Entry → Entry} {e : Entry} (h : (s.modifyEntry i f).entries[j]? = some e) :
    ∃ e₀, s.entries[j]? = some e₀ ∧ e = if i = j then f e₀ else e₀ := by
  rw [State.modifyEntry, List.getElem?_modify] at h
  obtain ⟨e₀, he₀, heq⟩ := Option.map_eq_some_iff.mp h
  refine ⟨e₀, he₀, ?_⟩
  split
  · next hij => rw [if_pos hij] at heq; exact heq.symm
  · next hij => rw [if_neg hij] at heq; exact heq.symm

theorem modifyEntry_entries {i j : ℕ} {f : Entry → Entry} (hroute : ∀ e, (f e).route = e.route) {e : Entry} {name : Name}
    (h : s.entries[j]? = some e) (hname : e.route = name) : ∃ e', (s.modifyEntry i f).entries[j]? = some e' ∧ e'.route = name := by
  rw [State.modifyEntry, List.getElem?_modify, h]
  refine ⟨_, rfl, ?_⟩
  split
  · exact (hroute e).trans hname
  · exact hname

/-- **An entry may lose what is parked at it**, and have others wait. -/
theorem Inv.shrink (h : Inv relay s) {i : ℕ} {f : Entry → Entry} (hroute : ∀ e, (f e).route = e.route) (hpin : ∀ e, (f e).pin = e.pin)
    (hparked : ∀ e, s.entries[i]? = some e → (f e).parked.Sublist e.parked) : Inv relay (s.modifyEntry i f) := by
  -- each entry afterwards is one from before, with less parked at it
  have hback : ∀ (j : ℕ) e, (s.modifyEntry i f).entries[j]? = some e →
      ∃ e₀, s.entries[j]? = some e₀ ∧ e.route = e₀.route ∧ e.pin = e₀.pin ∧ e.parked.Sublist e₀.parked := by
    intro j e he
    obtain ⟨e₀, he₀, rfl⟩ := entries_modifyEntry he
    refine ⟨e₀, he₀, ?_⟩
    split
    · next hij => exact ⟨hroute e₀, hpin e₀, hparked e₀ (hij ▸ he₀)⟩
    · exact ⟨rfl, rfl, .refl _⟩
  refine ⟨fun name j hj => ?_, fun j e he hne => ?_, fun j e he c hc => ?_, fun j e he => ?_, fun j e he c hc => ?_, fun j e he => ?_,
    h.maxRoutes, h.acceptedOnce, h.proven, h.splicedTo, h.controlsOnce, h.clientsOnce, h.askedOnce, fun client call hcall => ?_, h.live, h.count,
    h.maxSplices⟩
  · obtain ⟨e, he, hname⟩ := h.routes name j hj
    exact modifyEntry_entries hroute he hname
  · obtain ⟨e₀, he₀, hr, -, hsub⟩ := hback j e he
    rw [hr]
    refine h.current j e₀ he₀ fun hnil => hne ?_
    rw [hnil] at hsub
    exact List.sublist_nil.mp hsub
  · obtain ⟨e₀, he₀, hr, hp, hsub⟩ := hback j e he
    rw [hr, hp]
    exact h.parked j e₀ he₀ c (hsub.subset hc)
  · obtain ⟨e₀, he₀, -, -, hsub⟩ := hback j e he
    exact (h.parkedOnce j e₀ he₀).sublist hsub
  · obtain ⟨e₀, he₀, -, -, hsub⟩ := hback j e he
    exact h.parkedFree j e₀ he₀ c (hsub.subset hc)
  · obtain ⟨e₀, he₀, -, -, hsub⟩ := hback j e he
    exact hsub.length_le.trans (h.maxParked j e₀ he₀)
  · obtain ⟨hasked, hnew, e, he, hname⟩ := h.calls client call hcall
    exact ⟨hasked, hnew, modifyEntry_entries hroute he hname⟩

/-- A parked connection that is taken: it was accepted for its route, and is neither parked nor spliced. -/
structure Free (s : State) (name : Name) (control : ℕ) : Prop where
  accepted : ∃ p ∈ s.accepted, p.control = control ∧ p.route = name
  parked : ∀ (i : ℕ) e, s.entries[i]? = some e → control ∉ e.parked
  spliced : control ∉ s.spliced.map Splice.control

/-- One connection is parked at one entry only. -/
theorem Inv.entry_unique (h : Inv relay s) {i j : ℕ} {e e' : Entry} (he : s.entries[i]? = some e) (he' : s.entries[j]? = some e') {c : ℕ}
    (hc : c ∈ e.parked) (hc' : c ∈ e'.parked) : i = j := by
  obtain ⟨p, hp, hpc, hpr, -⟩ := h.parked i e he c hc
  obtain ⟨q, hq, hqc, hqr, -⟩ := h.parked j e' he' c hc'
  obtain rfl := List.inj_on_of_nodup_map h.acceptedOnce hp hq (hpc.trans hqc.symm)
  have hi := h.current i e he (List.ne_nil_of_mem hc)
  have hj := h.current j e' he' (List.ne_nil_of_mem hc')
  rw [← hpr, hqr, hj] at hi
  exact (Option.some.inj hi).symm

/-- **Taking a parked connection.** -/
theorem takeParked_spec (h : Inv relay s) {i : ℕ} {e : Entry} (he : s.entries[i]? = some e) :
    ∃ f : Entry → Entry, (∀ e, (f e).route = e.route) ∧ (s.takeParked i).2 = s.modifyEntry i f ∧ Inv relay (s.modifyEntry i f) ∧
      ∀ c, (s.takeParked i).1 = some c → Free (s.modifyEntry i f) e.route c := by
  set left := e.parked.dropWhile (· ∈ s.destroyed) with hleft
  have htake : s.takeParked i = (left.head?, s.modifyEntry i fun entry => { entry with parked := left.tail }) := by
    rw [State.takeParked, he]
  have hsub : left.Sublist e.parked := List.dropWhile_sublist _
  refine ⟨fun entry => { entry with parked := left.tail }, fun _ => rfl, by rw [htake], ?_, ?_⟩
  · refine h.shrink (fun _ => rfl) (fun _ => rfl) fun e' he' => ?_
    obtain rfl := Option.some.inj (he.symm.trans he')
    exact (List.tail_sublist _).trans hsub
  · intro c hc
    rw [htake] at hc
    obtain ⟨rest, hrest⟩ : ∃ rest, left = c :: rest := by
      cases hl : left with
      | nil =>
          rw [hl] at hc
          cases hc
      | cons first rest =>
          rw [hl] at hc
          exact ⟨rest, by rw [Option.some.inj hc]⟩
    have hmem : c ∈ e.parked := hsub.subset (hrest ▸ List.mem_cons_self)
    obtain ⟨p, hp, hpc, hpr, -⟩ := h.parked i e he c hmem
    refine ⟨⟨p, hp, hpc, hpr⟩, fun j e' he' hc' => ?_, h.parkedFree i e he c hmem⟩
    obtain ⟨e₀, he₀, rfl⟩ := entries_modifyEntry he'
    split at hc'
    · -- at its own entry it stood once
      have hnodup := (h.parkedOnce i e he).sublist hsub
      rw [hrest, List.tail_cons] at hc'
      rw [hrest] at hnodup
      exact (List.nodup_cons.mp hnodup).1 hc'
    · next hij => exact hij (h.entry_unique he he₀ hmem hc')

/-- A client that has not been spliced is spliced, or it and the connection are destroyed. -/
theorem connect_inv (h : Inv relay s) {client : ℕ} {name : Name} {parked : Option ℕ} (hasked : (client, name) ∈ s.asked)
    (hnew : client ∉ s.spliced.map Splice.client) (hcalls : s.calls.get? client = none) (hfree : ∀ c, parked = some c → Free s name c) :
    Inv relay (relay.connect s client name parked) := by
  cases parked with
  | none => exact h.other _ _ _ _ _
  | some control =>
      rw [Relay.connect]
      split
      · exact h.other _ _ _ _ _
      · split
        · exact h.other _ _ _ _ _
        · next hroom =>
            obtain ⟨haccepted, hparked, hspliced⟩ := hfree control rfl
            refine ⟨h.routes, h.current, h.parked, h.parkedOnce, fun i e he c hc => ?_, h.maxParked, h.maxRoutes, h.acceptedOnce, h.proven,
              fun sp hsp => ?_, ?_, ?_, h.askedOnce, fun client' call hcall => ?_, ⟨?_, fun sp hsp => ?_⟩, ?_, ?_⟩
            · rw [List.map_cons, List.mem_cons, not_or]
              refine ⟨?_, h.parkedFree i e he c hc⟩
              rintro rfl
              exact hparked i e he hc
            · rcases List.mem_cons.mp hsp with rfl | hold
              · exact ⟨hasked, haccepted⟩
              · exact h.splicedTo sp hold
            · exact List.nodup_cons.mpr ⟨hspliced, h.controlsOnce⟩
            · exact List.nodup_cons.mpr ⟨hnew, h.clientsOnce⟩
            · obtain ⟨hcalled, hunspliced, hentry⟩ := h.calls client' call hcall
              refine ⟨hcalled, ?_, hentry⟩
              rw [List.map_cons, List.mem_cons, not_or]
              refine ⟨?_, hunspliced⟩
              rintro rfl
              rw [hcalls] at hcall
              cases hcall
            · refine List.nodup_cons.mpr ⟨fun hmem => hnew ?_, h.live.1⟩
              exact List.mem_map.mpr ⟨_, h.live.2 _ hmem, rfl⟩
            · rcases List.mem_cons.mp hsp with rfl | hold
              · exact List.mem_cons_self
              · exact List.mem_cons_of_mem _ (h.live.2 sp hold)
            · rw [List.length_cons, ← h.count]
            · exact Nat.lt_of_not_le hroom

/-- A client that names a route for the first time. -/
theorem route_inv (h : Inv relay s) {client : ℕ} {name : Name} (hasked : (client, name) ∈ s.asked)
    (hnew : client ∉ s.spliced.map Splice.client) (hcalls : s.calls.get? client = none) : Inv relay (relay.route s client name) := by
  rw [Relay.route]
  cases hroute : s.routes.get? name with
  | none => exact h.other _ _ _ _ _
  | some i =>
      obtain ⟨e, he, hname⟩ := h.routes name i hroute
      obtain ⟨f, hf, htaken, hinv, hfree⟩ := takeParked_spec h he
      rw [hname] at hfree
      dsimp only
      split
      · next control s₁ heq =>
          obtain rfl : s.modifyEntry i f = s₁ := htaken.symm.trans (congrArg Prod.snd heq)
          refine connect_inv hinv hasked hnew hcalls fun c hc => hfree c ?_
          exact (congrArg Prod.fst heq).trans hc
      · next s₁ heq =>
          obtain rfl : s.modifyEntry i f = s₁ := htaken.symm.trans (congrArg Prod.snd heq)
          have hinv := hinv.shrink (i := i) (f := fun entry => { entry with waiting := entry.waiting ++ [client] }) (fun _ => rfl) (fun _ => rfl)
            fun _ _ => .refl _
          refine ⟨hinv.routes, hinv.current, hinv.parked, hinv.parkedOnce, hinv.parkedFree, hinv.maxParked, hinv.maxRoutes, hinv.acceptedOnce,
            hinv.proven, hinv.splicedTo, hinv.controlsOnce, hinv.clientsOnce, hinv.askedOnce, fun client' call hcall => ?_, hinv.live, hinv.count,
            hinv.maxSplices⟩
          rw [Entries.get?_set] at hcall
          split at hcall
          · next hclient =>
              obtain rfl := Option.some.inj hcall
              subst hclient
              refine ⟨hasked, hnew, ?_⟩
              obtain ⟨e₁, he₁, hname₁⟩ := modifyEntry_entries (i := i) hf he hname
              exact modifyEntry_entries (by exact fun _ => rfl) he₁ hname₁
          · exact hinv.calls client' call hcall

/-! ### Parking keeps it -/

/-- The key of an entry that nothing is parked at, or that has it already. -/
theorem Inv.repin (h : Inv relay s) {i : ℕ} {e : Entry} (he : s.entries[i]? = some e) {pin : String} (hpin : e.parked ≠ [] → e.pin = pin) :
    Inv relay (s.modifyEntry i fun entry => { entry with pin := pin }) := by
  have hback : ∀ (j : ℕ) e', (s.modifyEntry i fun entry => { entry with pin := pin }).entries[j]? = some e' →
      ∃ e₀, s.entries[j]? = some e₀ ∧ e'.route = e₀.route ∧ e'.parked = e₀.parked ∧ (e₀.parked ≠ [] → e'.pin = e₀.pin) := by
    intro j e' he'
    obtain ⟨e₀, he₀, rfl⟩ := entries_modifyEntry he'
    refine ⟨e₀, he₀, ?_⟩
    split
    · next hij =>
        obtain rfl := Option.some.inj (he.symm.trans (hij ▸ he₀))
        exact ⟨rfl, rfl, fun hne => (hpin hne).symm⟩
    · exact ⟨rfl, rfl, fun _ => rfl⟩
  refine ⟨fun name j hj => ?_, fun j e' he' hne => ?_, fun j e' he' c hc => ?_, fun j e' he' => ?_, fun j e' he' c hc => ?_, fun j e' he' => ?_,
    h.maxRoutes, h.acceptedOnce, h.proven, h.splicedTo, h.controlsOnce, h.clientsOnce, h.askedOnce, fun client call hcall => ?_, h.live, h.count,
    h.maxSplices⟩
  · obtain ⟨e', he', hname⟩ := h.routes name j hj
    exact modifyEntry_entries (by exact fun _ => rfl) he' hname
  · obtain ⟨e₀, he₀, hr, hparked, -⟩ := hback j e' he'
    rw [hr]
    exact h.current j e₀ he₀ (hparked ▸ hne)
  · obtain ⟨e₀, he₀, hr, hparked, hp⟩ := hback j e' he'
    rw [hparked] at hc
    rw [hr, hp (List.ne_nil_of_mem hc)]
    exact h.parked j e₀ he₀ c hc
  · obtain ⟨e₀, he₀, -, hparked, -⟩ := hback j e' he'
    rw [hparked]
    exact h.parkedOnce j e₀ he₀
  · obtain ⟨e₀, he₀, -, hparked, -⟩ := hback j e' he'
    exact h.parkedFree j e₀ he₀ c (hparked ▸ hc)
  · obtain ⟨e₀, he₀, -, hparked, -⟩ := hback j e' he'
    rw [hparked]
    exact h.maxParked j e₀ he₀
  · obtain ⟨hasked, hnew, e', he', hname⟩ := h.calls client call hcall
    exact ⟨hasked, hnew, modifyEntry_entries (by exact fun _ => rfl) he' hname⟩

/-- **A connection is parked** at the entry of its route, which has its key. -/
theorem Inv.add (h : Inv relay s) {i : ℕ} {e : Entry} (he : s.entries[i]? = some e) {p : Parked} (hroute : e.route = p.route)
    (hpin : e.pin = p.pin) (hcurrent : s.routes.get? p.route = some i) (hroom : e.parked.length < relay.maxParked)
    (hfresh : p.control ∉ s.accepted.map Parked.control) (hproven : relay.Proven p) (handlers : List (ℕ × Name × ℕ)) :
    Inv relay { s.modifyEntry i (fun entry => { entry with parked := entry.parked ++ [p.control], waiting := entry.waiting.tail }) with
      handlers := handlers, accepted := s.accepted ++ [p] } := by
  -- a connection that is new is neither parked nor spliced
  have hparked : ∀ (j : ℕ) e₀, s.entries[j]? = some e₀ → p.control ∉ e₀.parked := by
    intro j e₀ he₀ hmem
    obtain ⟨q, hq, hqc, -⟩ := h.parked j e₀ he₀ _ hmem
    exact hfresh (List.mem_map.mpr ⟨q, hq, hqc⟩)
  have hspliced : p.control ∉ s.spliced.map Splice.control := by
    intro hmem
    obtain ⟨sp, hsp, heq⟩ := List.mem_map.mp hmem
    obtain ⟨-, q, hq, hqc, -⟩ := h.splicedTo sp hsp
    exact hfresh (List.mem_map.mpr ⟨q, hq, hqc.trans heq⟩)
  have hback : ∀ (j : ℕ) e', (s.modifyEntry i fun entry =>
      { entry with parked := entry.parked ++ [p.control], waiting := entry.waiting.tail }).entries[j]? = some e' →
      ∃ e₀, s.entries[j]? = some e₀ ∧ e'.route = e₀.route ∧ e'.pin = e₀.pin ∧
        (e'.parked = e₀.parked ∨ j = i ∧ e₀ = e ∧ e'.parked = e.parked ++ [p.control]) := by
    intro j e' he'
    obtain ⟨e₀, he₀, rfl⟩ := entries_modifyEntry he'
    refine ⟨e₀, he₀, ?_⟩
    split
    · next hij =>
        obtain rfl := Option.some.inj (he.symm.trans (hij ▸ he₀))
        exact ⟨rfl, rfl, .inr ⟨hij.symm, rfl, rfl⟩⟩
    · exact ⟨rfl, rfl, .inl rfl⟩
  refine ⟨fun name j hj => ?_, fun j e' he' hne => ?_, fun j e' he' c hc => ?_, fun j e' he' => ?_, fun j e' he' c hc => ?_, fun j e' he' => ?_,
    h.maxRoutes, ?_, fun q hq => ?_, fun sp hsp => ?_, h.controlsOnce, h.clientsOnce, h.askedOnce, fun client call hcall => ?_, h.live, h.count,
    h.maxSplices⟩
  · obtain ⟨e', he', hname⟩ := h.routes name j hj
    exact modifyEntry_entries (by exact fun _ => rfl) he' hname
  · obtain ⟨e₀, he₀, hr, -, hsame | ⟨rfl, rfl, -⟩⟩ := hback j e' he'
    · rw [hr]
      exact h.current j e₀ he₀ (hsame ▸ hne)
    · rw [hr, hroute]
      exact hcurrent
  · obtain ⟨e₀, he₀, hr, hp, hsame | ⟨rfl, rfl, hmore⟩⟩ := hback j e' he'
    · obtain ⟨q, hq, hqs⟩ := h.parked j e₀ he₀ c (hsame ▸ hc)
      exact ⟨q, List.mem_append_left _ hq, by rw [hr, hp]; exact hqs⟩
    · rw [hmore] at hc
      rcases List.mem_append.mp hc with hold | hnew
      · obtain ⟨q, hq, hqs⟩ := h.parked j e₀ he₀ c hold
        exact ⟨q, List.mem_append_left _ hq, by rw [hr, hp]; exact hqs⟩
      · refine ⟨p, by simp, (List.mem_singleton.mp hnew).symm, ?_⟩
        rw [hr, hp]
        exact ⟨hroute.symm, hpin.symm⟩
  · obtain ⟨e₀, he₀, -, -, hsame | ⟨rfl, rfl, hmore⟩⟩ := hback j e' he'
    · rw [hsame]
      exact h.parkedOnce j e₀ he₀
    · rw [hmore, List.nodup_append]
      refine ⟨h.parkedOnce j e₀ he₀, List.nodup_singleton _, fun a ha b hb => ?_⟩
      rw [List.mem_singleton.mp hb]
      rintro rfl
      exact hparked j e₀ he₀ ha
  · obtain ⟨e₀, he₀, -, -, hsame | ⟨rfl, rfl, hmore⟩⟩ := hback j e' he'
    · exact h.parkedFree j e₀ he₀ c (hsame ▸ hc)
    · rw [hmore] at hc
      rcases List.mem_append.mp hc with hold | hnew
      · exact h.parkedFree j e₀ he₀ c hold
      · rw [List.mem_singleton.mp hnew]
        exact hspliced
  · obtain ⟨e₀, he₀, -, -, hsame | ⟨rfl, rfl, hmore⟩⟩ := hback j e' he'
    · rw [hsame]
      exact h.maxParked j e₀ he₀
    · rw [hmore, List.length_append]
      exact hroom
  · rw [List.map_append, List.nodup_append]
    refine ⟨h.acceptedOnce, List.nodup_singleton _, fun a ha b hb => ?_⟩
    rw [List.mem_singleton.mp hb]
    rintro rfl
    exact hfresh ha
  · rcases List.mem_append.mp hq with hold | hnew
    · exact h.proven q hold
    · rw [List.mem_singleton.mp hnew]
      exact hproven
  · obtain ⟨hasked, q, hq, hqs⟩ := h.splicedTo sp hsp
    exact ⟨hasked, q, List.mem_append_left _ hq, hqs⟩
  · obtain ⟨hasked, hnew, e', he', hname⟩ := h.calls client call hcall
    exact ⟨hasked, hnew, modifyEntry_entries (by exact fun _ => rfl) he' hname⟩

theorem entryFor_spec (h : Inv relay s) {p : Parked} {i : ℕ} (hentry : relay.entryFor s p = .ok (s', i)) :
    Inv relay s' ∧ s'.accepted = s.accepted ∧ s'.routes.get? p.route = some i ∧
      ∃ e, s'.entries[i]? = some e ∧ e.route = p.route ∧ (e.parked ≠ [] → e.pin = p.pin) := by
  rw [Relay.entryFor] at hentry
  cases hroute : s.routes.get? p.route with
  | some j =>
      rw [hroute] at hentry
      obtain ⟨e, he, hname⟩ := h.routes _ j hroute
      dsimp only at hentry
      rw [he] at hentry
      dsimp only at hentry
      split at hentry
      · cases hentry
      · next hpin =>
          cases hentry
          refine ⟨h, rfl, hroute, e, he, hname, fun hne => ?_⟩
          by_contra hother
          exact hpin (by simp [hother, hne])
  | none =>
      rw [hroute] at hentry
      dsimp only at hentry
      split at hentry
      · cases hentry
      · next hroom =>
          cases hentry
          -- every other entry is one from before, and nothing is parked at the new one
          have hback : ∀ (j : ℕ) e, (s.entries ++ [⟨p.route, p.pin, [], []⟩])[j]? = some e → e.parked ≠ [] → s.entries[j]? = some e := by
            intro j e he hne
            rw [List.getElem?_append] at he
            split at he
            · exact he
            · rw [List.getElem?_singleton] at he
              split at he
              · cases he
                exact absurd rfl hne
              · cases he
          have hold : ∀ (j : ℕ) e, s.entries[j]? = some e → (s.entries ++ [⟨p.route, p.pin, [], []⟩])[j]? = some e := by
            intro j e he
            rw [List.getElem?_append_left (List.getElem?_eq_some_iff.mp he).1]
            exact he
          have hnew : (s.entries ++ [⟨p.route, p.pin, [], []⟩])[s.entries.length]? = some ⟨p.route, p.pin, [], []⟩ := by simp
          have hparkedBack : ∀ (j : ℕ) e, (s.entries ++ [⟨p.route, p.pin, [], []⟩])[j]? = some e → ∀ c ∈ e.parked, s.entries[j]? = some e :=
            fun j e he c hc => hback j e he (List.ne_nil_of_mem hc)
          refine ⟨⟨fun name j hj => ?_, fun j e he hne => ?_, fun j e he c hc => h.parked j e (hparkedBack j e he c hc) c hc, fun j e he => ?_,
            fun j e he c hc => h.parkedFree j e (hparkedBack j e he c hc) c hc, fun j e he => ?_, ?_, h.acceptedOnce, h.proven, h.splicedTo,
            h.controlsOnce, h.clientsOnce, h.askedOnce, fun client call hcall => ?_, h.live, h.count, h.maxSplices⟩, rfl, ?_, _, hnew, rfl,
            fun hne => absurd rfl hne⟩
          · rw [Entries.get?_set] at hj
            split at hj
            · next hname =>
                cases hj
                exact ⟨_, hnew, hname.symm⟩
            · obtain ⟨e, he, hname⟩ := h.routes name j hj
              exact ⟨e, hold j e he, hname⟩
          · have hcurrent := h.current j e (hback j e he hne) hne
            rw [Entries.get?_set, if_neg]
            · exact hcurrent
            · rintro heq
              rw [heq, hroute] at hcurrent
              cases hcurrent
          · by_cases hne : e.parked = []
            · rw [hne]
              exact .nil
            · exact h.parkedOnce j e (hback j e he hne)
          · by_cases hne : e.parked = []
            · rw [hne]
              exact Nat.zero_le _
            · exact h.maxParked j e (hback j e he hne)
          · exact (Entries.length_set_le _ _ _).trans (Nat.lt_of_not_le hroom)
          · obtain ⟨hasked, hunspliced, e, he, hname⟩ := h.calls client call hcall
            exact ⟨hasked, hunspliced, e, hold _ e he, hname⟩
          · rw [Entries.get?_set, if_pos rfl]

theorem addParked_inv (h : Inv relay s) {p : Parked} {i : ℕ} {e : Entry} (he : s.entries[i]? = some e) (hroute : e.route = p.route)
    (hpin : e.parked ≠ [] → e.pin = p.pin) (hcurrent : s.routes.get? p.route = some i) (hfresh : p.control ∉ s.accepted.map Parked.control)
    (hproven : relay.Proven p) : Inv relay (relay.addParked s p i).2 := by
  have hpinned := h.repin he hpin
  have he' : (s.modifyEntry i fun entry => { entry with pin := p.pin }).entries[i]? = some { e with pin := p.pin } := by
    rw [State.modifyEntry, List.getElem?_modify, he]
    simp
  rw [Relay.addParked]
  dsimp only
  rw [he']
  dsimp only
  split
  · exact hpinned
  · next hroom => exact hpinned.add he' hroute rfl hcurrent (Nat.lt_of_not_le hroom) hfresh hproven _

/-- A line that is accepted carries a proof for its route and for the key of the node that sent it. -/
theorem proven_of_readLine {control : ℕ} {nodePin : String} {line : Option ParkLine} {p : Parked}
    (h : relay.readLine control nodePin line = .ok p) : p.control = control ∧ relay.Proven p := by
  unfold Relay.readLine at h
  split at h
  · cases h
  · split at h
    · split at h
      · cases h
      · next hform =>
          split at h
          · cases h
          · next hmac =>
              cases h
              simp only [Bool.or_eq_true, Bool.not_eq_true', not_or, Bool.not_eq_false] at hform
              exact ⟨rfl, hform.1.2, hform.2, not_not.mp hmac⟩
    · cases h

theorem park_inv (h : Inv relay s) {control : ℕ} {nodePin : Option String} {line : Option ParkLine} {clock now : ℤ}
    (hfresh : control ∉ s.accepted.map Parked.control) : Inv relay (relay.park s control nodePin line clock now).2 := by
  unfold Relay.park
  cases nodePin with
  | none => exact h
  | some nodePin =>
      dsimp only
      cases hline : relay.readLine control nodePin line with
      | error error => exact h
      | ok p =>
          obtain ⟨rfl, hproven⟩ := proven_of_readLine hline
          dsimp only
          split
          · exact h.other _ _ _ _ _
          · next nonces _ =>
              have hnonces : Inv relay { s with nonces := nonces } := h.other _ _ _ _ _
              split
              · exact hnonces
              · next s₁ i hentry =>
                  obtain ⟨hinv, haccepted, hcurrent, e, he, hroute, hpin⟩ := entryFor_spec hnonces hentry
                  exact addParked_inv hinv he hroute hpin hcurrent (by rw [haccepted]; exact hfresh) hproven

/-! ### Runs -/

/-- **Each step keeps the invariant.** -/
theorem step_inv (h : Inv relay s) {a : Action} (hstep : relay.step s a = some s') : Inv relay s' := by
  cases a with
  | hello client name =>
      rw [Relay.step] at hstep
      split at hstep
      · cases hstep
      · next hnew =>
          have hasked : Inv relay { s with asked := s.asked ++ [(client, name)] } := by
            refine ⟨h.routes, h.current, h.parked, h.parkedOnce, h.parkedFree, h.maxParked, h.maxRoutes, h.acceptedOnce, h.proven,
              fun sp hsp => ⟨List.mem_append_left _ (h.splicedTo sp hsp).1, (h.splicedTo sp hsp).2⟩, h.controlsOnce, h.clientsOnce, ?_,
              fun client' call hcall => ⟨List.mem_append_left _ (h.calls client' call hcall).1, (h.calls client' call hcall).2⟩, h.live, h.count,
              h.maxSplices⟩
            rw [List.map_append, List.nodup_append]
            refine ⟨h.askedOnce, List.nodup_singleton _, fun a ha b hb => ?_⟩
            rw [List.mem_singleton.mp hb]
            rintro rfl
            exact hnew ha
          -- a client that is new has not been spliced, nor does it wait
          have hunspliced : client ∉ s.spliced.map Splice.client := by
            intro hmem
            obtain ⟨sp, hsp, rfl⟩ := List.mem_map.mp hmem
            exact hnew (List.mem_map.mpr ⟨_, (h.splicedTo sp hsp).1, rfl⟩)
          have huncalled : s.calls.get? client = none := by
            rw [Option.eq_none_iff_forall_ne_some]
            intro call hcall
            exact hnew (List.mem_map.mpr ⟨_, (h.calls client call hcall).1, rfl⟩)
          dsimp only at hstep
          split at hstep
          · cases hstep
            exact hasked
          · split at hstep
            · cases hstep
              exact route_inv hasked (by simp) hunspliced huncalled
            · cases hstep
              exact hasked.other _ _ _ _ _
  | resume client =>
      obtain ⟨call, hcall, rfl⟩ := Option.map_eq_some_iff.mp hstep
      obtain ⟨hasked, hunspliced, e, he, hname⟩ := h.calls client call hcall
      have hdeleted : Inv relay { s with calls := s.calls.delete client } := by
        refine ⟨h.routes, h.current, h.parked, h.parkedOnce, h.parkedFree, h.maxParked, h.maxRoutes, h.acceptedOnce, h.proven, h.splicedTo,
          h.controlsOnce, h.clientsOnce, h.askedOnce, fun client' call' hcall' => ?_, h.live, h.count, h.maxSplices⟩
        rw [Entries.get?_delete] at hcall'
        split at hcall'
        · cases hcall'
        · exact h.calls client' call' hcall'
      obtain ⟨f, -, htaken, hinv, hfree⟩ := takeParked_spec hdeleted (i := call.entry) he
      dsimp only
      rw [htaken]
      refine connect_inv hinv hasked hunspliced ?_ fun c hc => hname ▸ hfree c hc
      change (s.calls.delete client).get? client = none
      rw [Entries.get?_delete, if_pos rfl]
  | clientGone client =>
      cases hstep
      exact h.other _ _ _ _ _
  | park control nodePin line clock now =>
      rw [Relay.step] at hstep
      split at hstep
      · cases hstep
      · next hfresh =>
          cases hstep
          exact park_inv h hfresh
  | controlGone control =>
      cases hstep
      exact h.other _ _ _ _ _
  | controlClosed control name i =>
      rw [Relay.step] at hstep
      split at hstep
      · cases hstep
        have hhandlers : Inv relay { s with handlers := s.handlers.erase (control, name, i) } := h.other _ _ _ _ _
        have hless := hhandlers.shrink (i := i) (f := fun entry => { entry with parked := entry.parked.erase control }) (fun _ => rfl)
          (fun _ => rfl) fun _ _ => List.erase_sublist
        split
        · exact hless.other _ _ _ _ _
        · exact hless
      · cases hstep
  | timer name i =>
      rw [Relay.step] at hstep
      split at hstep
      · cases hstep
        have htimers : Inv relay { s with timers := s.timers.erase (name, i) } := h.other _ _ _ _ _
        dsimp only
        split
        · next hidle =>
            refine ⟨fun name' j hj => ?_, fun j e he hne => ?_, h.parked, h.parkedOnce, h.parkedFree, h.maxParked,
              (Entries.length_delete_le _ _).trans h.maxRoutes, h.acceptedOnce, h.proven, h.splicedTo, h.controlsOnce, h.clientsOnce, h.askedOnce,
              h.calls, h.live, h.count, h.maxSplices⟩
            · rw [Entries.get?_delete] at hj
              split at hj
              · cases hj
              · exact h.routes name' j hj
            · -- the entry that goes has nothing parked at it
              have hcurrent := h.current j e he hne
              rw [Entries.get?_delete, if_neg]
              · exact hcurrent
              · rintro rfl
                have hij : i = j := Option.some.inj (hidle.1.symm.trans hcurrent)
                have hempty := hidle.2
                subst hij
                rw [he] at hempty
                exact hne (List.isEmpty_iff.mp hempty)
        · exact htimers
      · cases hstep
  | spliceEnds splice =>
      rw [Relay.step] at hstep
      split at hstep
      · next hmem =>
          cases hstep
          have hcount : s.splices - 1 = (s.live.erase splice).length := by rw [List.length_erase_of_mem hmem, h.count]
          refine ⟨h.routes, h.current, h.parked, h.parkedOnce, h.parkedFree, h.maxParked, h.maxRoutes, h.acceptedOnce, h.proven, h.splicedTo,
            h.controlsOnce, h.clientsOnce, h.askedOnce, h.calls, ⟨h.live.1.erase splice, fun sp hsp => h.live.2 sp (List.mem_of_mem_erase hsp)⟩,
            hcount, (Nat.sub_le _ _).trans h.maxSplices⟩
      · cases hstep

/-- What the relay promises. -/
structure Safe (relay : Relay) (s : State) : Prop where
  /-- A client comes to a connection that was parked under the name it asked for, with a proof of the secret for that name and the node's
  key. -/
  reaches : ∀ sp ∈ s.spliced, (sp.client, sp.name) ∈ s.asked ∧ ∃ p ∈ s.accepted, p.control = sp.control ∧ p.route = sp.name ∧ relay.Proven p
  clientsOnce : (s.spliced.map Splice.client).Nodup
  controlsOnce : (s.spliced.map Splice.control).Nodup
  /-- What is parked is not spliced. -/
  waits : ∀ e ∈ s.entries, ∀ c ∈ e.parked, c ∉ s.spliced.map Splice.control
  /-- One node has a name, as long as one of its connections is parked under it. -/
  oneNode : ∀ e ∈ s.entries, ∀ e' ∈ s.entries, ∀ c ∈ e.parked, ∀ c' ∈ e'.parked, ∀ p ∈ s.accepted, ∀ p' ∈ s.accepted,
    p.control = c → p'.control = c' → p.route = p'.route → p.pin = p'.pin
  splices : s.splices = s.live.length ∧ s.splices ≤ relay.maxSplices
  routes : s.routes.keys.length ≤ relay.maxRoutes
  parked : ∀ e ∈ s.entries, e.parked.length ≤ relay.maxParked

theorem Inv.safe (h : Inv relay s) : Safe relay s where
  reaches := by
    intro sp hsp
    obtain ⟨hasked, p, hp, hc, hr⟩ := h.splicedTo sp hsp
    exact ⟨hasked, p, hp, hc, hr, h.proven p hp⟩
  clientsOnce := h.clientsOnce
  controlsOnce := h.controlsOnce
  waits := by
    intro e he c hc
    obtain ⟨i, hi⟩ := List.mem_iff_getElem?.mp he
    exact h.parkedFree i e hi c hc
  oneNode := by
    rintro e he e' he' c hc c' hc' p hp p' hp' rfl rfl hroute
    obtain ⟨i, hi⟩ := List.mem_iff_getElem?.mp he
    obtain ⟨j, hj⟩ := List.mem_iff_getElem?.mp he'
    obtain ⟨q, hq, hqc, hqr, hqp⟩ := h.parked i e hi _ hc
    obtain ⟨q', hq', hqc', hqr', hqp'⟩ := h.parked j e' hj _ hc'
    obtain rfl := List.inj_on_of_nodup_map h.acceptedOnce hq hp hqc
    obtain rfl := List.inj_on_of_nodup_map h.acceptedOnce hq' hp' hqc'
    -- both entries are the one of the route
    have hcurrent := h.current i e hi (List.ne_nil_of_mem hc)
    have hcurrent' := h.current j e' hj (List.ne_nil_of_mem hc')
    rw [← hqr, hroute, hqr', hcurrent'] at hcurrent
    obtain rfl := Option.some.inj hcurrent
    obtain rfl := Option.some.inj (hi.symm.trans hj)
    exact hqp.trans hqp'.symm
  splices := ⟨h.count, h.maxSplices⟩
  routes := h.maxRoutes
  parked := by
    intro e he
    obtain ⟨i, hi⟩ := List.mem_iff_getElem?.mp he
    exact h.maxParked i e hi

/-- A relay whose proof is the route itself. -/
def openRelay : Relay where
  domain := []
  maxRoutes := 1
  maxParked := 2
  maxSplices := 1
  parkProof route _ _ _ := route.map fun c => c.toNat.toUInt8
  fromBase64url mac := mac.map fun c => c.toNat.toUInt8

def homeRoute : Name := "home.pokyh-relay".toList

def homeLine (n : String) : ParkLine := ⟨some "park", some homeRoute, some 0, some n.toList, some homeRoute⟩

/-- The node parks, a client is spliced, and the node parks again.  Another node is not let in, and no more splices are for a second client. -/
def homeRun : List Action :=
  [.park 0 (some "node") (some (homeLine "aaaaaaaaaaaaaaaa")) 0 0, .hello 7 homeRoute, .park 1 (some "node") (some (homeLine "bbbbbbbbbbbbbbbb")) 1 1,
    .park 2 (some "other") (some (homeLine "cccccccccccccccc")) 2 2, .hello 8 homeRoute]

end Pokyh.Cluster.Relay

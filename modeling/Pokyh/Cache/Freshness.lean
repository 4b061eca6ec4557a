import Pokyh.Cache.Store

/-!
# Cache — Freshness

Where answers are fresh (`Answered.Fresh`), in any number of processes and over any run.

* `World.Kept`: the invariant.  Entries are dated by the versions of the store they are in, and what a process has
  invalidated has raised versions in its memory, and in Redis while that is not owed (`Process.UpToDate`).
* `answers_fresh`: every answer is fresh, in every careful run.
* `stale_after_reconnect`: an invalidation without Redis is forgotten when Redis is connected again.
-/

namespace Pokyh.Cache
open Pokyh.Lib

/-! ### The invariant -/

/-- The tables of the invalidation have had a new version since. -/
def Covers (s : Versions Table) (i : List Table × ℕ) : Prop := ∀ t ∈ i.1, i.2 ≤ s.latest .all ∨ i.2 ≤ s.latest t

/-- Its versions had all been reached when the answer began to be loaded. -/
def Entry.Dated (s : Versions Table) (e : Entry) : Prop := s.Before e.name.names e.versions e.began

/-- What the process has invalidated is not still to be invalidated in Redis. -/
def Process.UpToDate (q : Process) : Prop :=
  q.connection = .on ∨ q.connection = .raised ∨ q.staleAfterReconnect = false ∧ q.missed = false

structure Process.Kept (versions : Versions Table) (clock : ℕ) (q : Process) : Prop where
  bounded : q.memoryVersions.Bounded clock
  memory : ∀ e ∈ q.memory, e.Dated q.memoryVersions
  past : ∀ i ∈ q.resolved, i.2 ≤ clock
  inMemory : ∀ i ∈ q.resolved, Covers q.memoryVersions i
  inRedis : q.UpToDate → ∀ i ∈ q.resolved, Covers versions i

def World.versionsOf (w : World) (p : ℕ) : Store → Versions Table
  | .redis => w.versions
  | .memory => (w.processes p).memoryVersions

/-- So of every change that an answer of that name must not miss. -/
def ForSeen (name : Name) (seen : List (Table × ℕ)) (P : Table × ℕ → Prop) : Prop :=
  ∀ e ∈ seen, e.1 ∈ name.names → P e

/-- The versions in the key had been reached when the answer of that age began to be loaded. -/
def Key.Dated (w : World) (p : ℕ) (key : Key) (began : ℕ) : Prop :=
  (w.versionsOf p key.source).Before key.name.names key.versions began

/-- One of the versions in the key is of after the change. -/
def Key.IsAfter (w : World) (p : ℕ) (key : Key) (e : Table × ℕ) : Prop :=
  e.2 ≤ w.clock ∧ (w.versionsOf p key.source).After key.name.names key.versions e.2

structure Invalidation.Kept (w : World) (i : Invalidation) : Prop where
  past : i.began ≤ w.clock
  inMemory : Covers (w.processes i.process).memoryVersions (i.names, i.began)
  statement : ∀ s ∈ i.statement, s.process = i.process ∧ namesOf s.operation.models = i.names ∧ s.executedAt ≤ i.began

def Task.Kept (w : World) : Task → Prop
  | .currentVersions p name seen =>
      ForSeen name seen fun e => ∃ i ∈ (w.processes p).resolved, e.1 ∈ i.1 ∧ e.2 ≤ i.2
  | .mGet _ name seen =>
      ForSeen name seen fun e => e.2 ≤ w.clock ∧ (e.2 ≤ w.versions.latest .all ∨ e.2 ≤ w.versions.latest e.1)
  | .read p key seen | .get p key seen => key.Dated w p w.clock ∧ ForSeen key.name seen (key.IsAfter w p)
  | .load p name key seen began => (∀ k ∈ key, k.Dated w p began) ∧ ForSeen name seen fun e => e.2 ≤ began
  | .write p key began | .set p key began => key.Dated w p began
  | .hook s => s.executedAt ≤ w.clock
  | .invalidateTables i => i.Kept w
  | .incr i names => i.Kept w ∧ (∀ t ∈ i.names, t ∈ names ∨ i.began ≤ w.versions.latest t) ∧
      ((w.processes i.process).connection = .raised → i.began ≤ w.versions.latest .all)

/-- A write outside a transaction is committed when its hook begins. -/
def Write.Kept (w : World) (wr : Write) : Prop :=
  wr.statement.inTransaction = false → wr.committedAt = some wr.statement.executedAt ∧
    (wr.invalidated = true → ∃ i ∈ (w.processes wr.statement.process).resolved,
      i.1 = namesOf wr.statement.operation.models ∧ wr.statement.executedAt ≤ i.2)

structure World.Kept (w : World) : Prop where
  bounded : w.versions.Bounded w.clock
  entries : ∀ e ∈ w.entries, e.Dated w.versions
  processes : ∀ p, (w.processes p).Kept w.versions w.clock
  tasks : ∀ t ∈ w.tasks, t.Kept w
  writes : ∀ wr ∈ w.writes, wr.Kept w
  log : ∀ a ∈ w.log, a.Fresh

/-! ### What stays true as versions grow -/

/-- What was said of the first world stays true in the second. -/
structure World.Later (w w' : World) : Prop where
  clock : w.clock ≤ w'.clock
  versions : w.versions.Extends w'.versions
  memoryVersions : ∀ p, (w.processes p).memoryVersions.Extends (w'.processes p).memoryVersions
  resolved : ∀ p, ∀ i ∈ (w.processes p).resolved, i ∈ (w'.processes p).resolved
  raised : ∀ p, (w'.processes p).connection = .raised →
    (w.processes p).connection = .raised ∨ w.clock ≤ w'.versions.latest .all

variable {w w' : World} {s s' : Versions Table} {p : ℕ} {q : Process} {key : Key} {name : Name}
  {seen : List (Table × ℕ)} {P Q : Table × ℕ → Prop} {i : Invalidation} {memoryEntries : ℕ}

theorem ForSeen.imp (h : ForSeen name seen P) (hPQ : ∀ e ∈ seen, e.1 ∈ name.names → P e → Q e) : ForSeen name seen Q :=
  fun e he hname => hPQ e he hname (h e he hname)

theorem Covers.mono {j : List Table × ℕ} (h : Covers s j) (hext : s.Extends s') : Covers s' j := fun t ht =>
  (h t ht).imp (fun hall => hall.trans (hext.latest .all)) fun hone => hone.trans (hext.latest t)

theorem Process.Kept.mono {c c' : ℕ} (h : q.Kept s c) (hext : s.Extends s') (hle : c ≤ c') : q.Kept s' c' where
  bounded := h.bounded.mono hle
  memory := h.memory
  past j hj := (h.past j hj).trans hle
  inMemory := h.inMemory
  inRedis hup j hj := (h.inRedis hup j hj).mono hext

theorem World.Later.versionsOf (h : w.Later w') (p : ℕ) : ∀ store, (w.versionsOf p store).Extends (w'.versionsOf p store)
  | .redis => h.versions
  | .memory => h.memoryVersions p

theorem Key.Dated.later {began : ℕ} (hk : key.Dated w p began) (h : w.Later w') : key.Dated w' p began :=
  (h.versionsOf p key.source).before hk

theorem Key.IsAfter.later {e : Table × ℕ} (hk : key.IsAfter w p e) (h : w.Later w') : key.IsAfter w' p e :=
  ⟨hk.1.trans h.clock, (h.versionsOf p key.source).after hk.2⟩

theorem Invalidation.Kept.later (hi : i.Kept w) (h : w.Later w') : i.Kept w' :=
  ⟨hi.past.trans h.clock, hi.inMemory.mono (h.memoryVersions i.process), hi.statement⟩

theorem Task.Kept.later {t : Task} (ht : t.Kept w) (h : w.Later w') : t.Kept w' := by
  cases t with
  | currentVersions p name seen =>
      refine ForSeen.imp ht fun e _ _ ⟨j, hj, hin, hle⟩ => ?_
      exact ⟨j, h.resolved p j hj, hin, hle⟩
  | mGet p name seen =>
      refine ForSeen.imp ht fun e _ _ ⟨hpast, hcover⟩ => ⟨hpast.trans h.clock, ?_⟩
      exact hcover.imp (fun hall => hall.trans (h.versions.latest .all)) fun hone => hone.trans (h.versions.latest e.1)
  | read p key seen | get p key seen =>
      exact ⟨Versions.Before.mono (ht.1.later h) h.clock, ht.2.imp fun _ _ _ hafter => hafter.later h⟩
  | load p name key seen began => exact ⟨fun k hk => (ht.1 k hk).later h, ht.2⟩
  | write p key began | set p key began => exact Key.Dated.later ht h
  | hook s => exact Nat.le_trans ht h.clock
  | invalidateTables i => exact Invalidation.Kept.later ht h
  | incr i names =>
      obtain ⟨hi, hnames, hraised⟩ := ht
      refine ⟨hi.later h, fun t ht => (hnames t ht).imp_right fun hle => hle.trans (h.versions.latest t), fun hnow => ?_⟩
      rcases h.raised i.process hnow with hbefore | hclock
      · exact (hraised hbefore).trans (h.versions.latest .all)
      · exact hi.past.trans hclock

theorem Write.Kept.later {wr : Write} (hwr : wr.Kept w) (h : w.Later w') : wr.Kept w' := fun hout => by
  obtain ⟨hcommitted, hinvalidated⟩ := hwr hout
  refine ⟨hcommitted, fun hinv => ?_⟩
  obtain ⟨j, hj, hnames, hle⟩ := hinvalidated hinv
  exact ⟨j, h.resolved _ j hj, hnames, hle⟩

/-- What a later world must show anew. -/
theorem World.Kept.later (hw : w.Kept) (h : w.Later w') (hbounded : w'.versions.Bounded w'.clock)
    (hentries : ∀ e ∈ w'.entries, e ∈ w.entries ∨ e.Dated w'.versions)
    (hprocesses : ∀ p, w'.processes p = w.processes p ∨ (w'.processes p).Kept w'.versions w'.clock)
    (htasks : ∀ t ∈ w'.tasks, t ∈ w.tasks ∨ t.Kept w') (hwrites : ∀ wr ∈ w'.writes, wr ∈ w.writes ∨ wr.Kept w')
    (hlog : ∀ a ∈ w'.log, a ∈ w.log ∨ a.Fresh) : w'.Kept where
  bounded := hbounded
  entries e he := (hentries e he).elim (fun hold => h.versions.before (hw.entries e hold)) id
  processes p := (hprocesses p).elim (fun hsame => hsame ▸ (hw.processes p).mono h.versions h.clock) id
  tasks t ht := (htasks t ht).elim (fun hold => (hw.tasks t hold).later h) id
  writes wr hwr := (hwrites wr hwr).elim (fun hold => (hw.writes wr hold).later h) id
  log a ha := (hlog a ha).elim (hw.log a) id

/-- Where neither versions nor processes change. -/
theorem World.Later.of_eq (hclock : w.clock ≤ w'.clock) (hversions : w'.versions = w.versions)
    (hprocesses : w'.processes = w.processes) : w.Later w' where
  clock := hclock
  versions := hversions ▸ .refl _
  memoryVersions p := by rw [hprocesses]; exact .refl _
  resolved p i hi := by rw [hprocesses]; exact hi
  raised p hp := .inl (by rwa [hprocesses] at hp)

theorem Process.Kept.started (s : Versions Table) : Process.started.Kept s 0 where
  bounded _ := le_rfl
  memory := by simp [Process.started]
  past := by simp [Process.started]
  inMemory := by simp [Process.started]
  inRedis := by simp [Process.started]

theorem World.Kept.started : World.started.Kept where
  bounded _ := le_rfl
  entries := by simp [World.started]
  processes _ := .started _
  tasks := by simp [World.started]
  writes := by simp [World.started]
  log := by simp [World.started]

/-! ### The parts of a step -/

theorem World.Kept.erase (hw : w.Kept) (t : Task) : { w with tasks := w.tasks.erase t }.Kept :=
  hw.later (.of_eq le_rfl rfl rfl) hw.bounded (fun _ => .inl) (fun _ => .inl rfl)
    (fun _ ht => .inl (List.mem_of_mem_erase ht)) (fun _ => .inl) fun _ => .inl

theorem World.Kept.next {t : Task} (hw : w.Kept) (ht : t.Kept w) : (w.next t).Kept := by
  have hlater : w.Later (w.next t) := .of_eq le_rfl rfl rfl
  refine hw.later hlater hw.bounded (fun _ => .inl) (fun _ => .inl rfl) (fun t' ht' => ?_) (fun _ => .inl) fun _ => .inl
  rcases List.mem_cons.mp ht' with rfl | hold
  · exact .inr (ht.later hlater)
  · exact .inl hold

theorem World.Kept.answer {began : ℕ} (hw : w.Kept) (h : ForSeen name seen fun e => e.2 ≤ began) :
    (w.answer p name seen began).Kept := by
  refine hw.later (.of_eq le_rfl rfl rfl) hw.bounded (fun _ => .inl) (fun _ => .inl rfl) (fun _ => .inl) (fun _ => .inl)
    fun a ha => ?_
  rcases List.mem_cons.mp ha with rfl | hold
  · exact .inr h
  · exact .inl hold

theorem World.Kept.setEntries {entries : List Entry} (hw : w.Kept)
    (h : ∀ e ∈ entries, e ∈ w.entries ∨ e.Dated w.versions) : { w with entries := entries }.Kept :=
  hw.later (.of_eq le_rfl rfl rfl) hw.bounded h (fun _ => .inl rfl) (fun _ => .inl) (fun _ => .inl) fun _ => .inl

theorem World.Kept.setWrites {writes : List Write} (hw : w.Kept)
    (h : ∀ wr ∈ writes, wr ∈ w.writes ∨ wr.Kept w) : { w with writes := writes }.Kept := by
  have hlater : w.Later { w with writes := writes } := .of_eq le_rfl rfl rfl
  exact hw.later hlater hw.bounded (fun _ => .inl) (fun _ => .inl rfl) (fun _ => .inl)
    (fun wr hwr => (h wr hwr).imp_right fun hkept => hkept.later hlater) fun _ => .inl

theorem World.Kept.setStray (hw : w.Kept) (stray : List Table) : { w with stray := stray }.Kept :=
  hw.later (.of_eq le_rfl rfl rfl) hw.bounded (fun _ => .inl) (fun _ => .inl rfl) (fun _ => .inl) (fun _ => .inl)
    fun _ => .inl

theorem World.Kept.tick (hw : w.Kept) : { w with clock := w.clock + 1 }.Kept :=
  hw.later (.of_eq (Nat.le_succ _) rfl rfl) (hw.bounded.mono (Nat.le_succ _)) (fun _ => .inl) (fun _ => .inl rfl)
    (fun _ => .inl) (fun _ => .inl) fun _ => .inl

theorem World.Kept.raise (hw : w.Kept) (t : Table) : { w with versions := w.versions.raise w.clock t }.Kept := by
  refine hw.later ⟨le_rfl, hw.bounded.extends_raise, fun _ => .refl _, fun _ _ => id, fun _ => .inl⟩ hw.bounded.raise
    (fun _ => .inl) (fun _ => .inl rfl) (fun _ => .inl) (fun _ => .inl) fun _ => .inl

@[simp] theorem World.processes_update_self : (w.update p q).processes p = q := by simp [World.update]

@[simp] theorem World.processes_update_of_ne {p' : ℕ} (h : p' ≠ p) : (w.update p q).processes p' = w.processes p' := by
  simp [World.update, h]

/-- A process may go on from the one that it was. -/
structure Process.Follows (w : World) (q q' : Process) : Prop where
  memoryVersions : q.memoryVersions.Extends q'.memoryVersions
  resolved : ∀ i ∈ q.resolved, i ∈ q'.resolved
  raised : q'.connection = .raised → q.connection = .raised ∨ w.clock ≤ w.versions.latest .all

theorem World.later_update (h : (w.processes p).Follows w q) : w.Later (w.update p q) := by
  have hother : ∀ p', p' = p ∧ (w.update p q).processes p' = q ∨ (w.update p q).processes p' = w.processes p' :=
    fun p' => by rcases eq_or_ne p' p with rfl | hne <;> simp [*]
  refine ⟨le_rfl, .refl _, fun p' => ?_, fun p' => ?_, fun p' => ?_⟩
  all_goals rcases hother p' with ⟨rfl, hp⟩ | hp
  all_goals rw [hp]
  · exact h.memoryVersions
  · exact .refl _
  · exact h.resolved
  · exact fun _ => id
  · exact h.raised
  · exact .inl

theorem World.Kept.update (hw : w.Kept) (hq : q.Kept w.versions w.clock) (h : (w.processes p).Follows w q) :
    (w.update p q).Kept := by
  refine hw.later (World.later_update h) hw.bounded (fun _ => .inl) (fun p' => ?_) (fun _ => .inl) (fun _ => .inl)
    fun _ => .inl
  rcases eq_or_ne p' p with rfl | hne
  · exact .inr (by rw [World.processes_update_self]; exact hq)
  · exact .inl (World.processes_update_of_ne hne)

/-- The versions and the invalidations of a process stay, and it is not just up to date. -/
theorem World.Kept.updateSame (hw : w.Kept) (hversions : q.memoryVersions = (w.processes p).memoryVersions)
    (hresolved : q.resolved = (w.processes p).resolved) (hmemory : ∀ e ∈ q.memory, e ∈ (w.processes p).memory)
    (hraised : q.connection = .raised → (w.processes p).connection = .raised)
    (hup : q.UpToDate → (w.processes p).UpToDate) : (w.update p q).Kept := by
  have h := hw.processes p
  refine hw.update ⟨hversions ▸ h.bounded, fun e he => hversions ▸ h.memory e (hmemory e he), hresolved ▸ h.past, ?_, ?_⟩
    ⟨hversions ▸ .refl _, hresolved ▸ fun _ => id, fun hnow => .inl (hraised hnow)⟩
  · rw [hversions, hresolved]
    exact h.inMemory
  · rw [hresolved]
    exact fun hnow => h.inRedis (hup hnow)

/-! ### Invalidations -/

theorem World.Kept.invalidate {st : Option Statement} {models : Option (List Model)} (hw : w.Kept)
    (hst : ∀ s ∈ st, s.process = p ∧ s.operation.models = models ∧ s.executedAt ≤ w.clock) :
    (w.invalidate p st models).Kept := by
  have h := hw.processes p
  have hext := @Versions.Bounded.extends_raiseAll _ _ _ _ (namesOf models) h.bounded
  have hq : Process.Kept w.versions w.clock { w.processes p with
      memory := if models.isNone then [] else (w.processes p).memory
      memoryVersions := (w.processes p).memoryVersions.raiseAll w.clock (namesOf models) } := by
    refine ⟨h.bounded.raiseAll, fun e he => ?_, h.past, fun j hj => (h.inMemory j hj).mono hext, h.inRedis⟩
    have hold : e ∈ (w.processes p).memory := by
      cases models with
      | none => cases he
      | some _ => exact he
    exact hext.before (h.memory e hold)
  refine (hw.update hq ⟨hext, fun _ => id, .inl⟩).next ⟨le_rfl, fun t ht => .inr ?_, fun s hs => ?_⟩
  · rw [World.processes_update_self]
    exact h.bounded.le_latest_raiseAll ht
  · obtain ⟨hprocess, hmodels, hpast⟩ := hst s hs
    exact ⟨hprocess, by rw [hmodels], hpast⟩

@[simp] theorem Process.settleLater_resolved (models : Option (List Model)) :
    (q.settleLater models).resolved = q.resolved := by cases models <;> rfl

/-- What is to be settled is no part of the invariant. -/
theorem Process.Kept.settleLater {c : ℕ} (h : q.Kept s c) : ∀ models, (q.settleLater models).Kept s c
  | none => ⟨h.bounded, h.memory, h.past, h.inMemory, h.inRedis⟩
  | some _ => ⟨h.bounded, h.memory, h.past, h.inMemory, h.inRedis⟩

theorem Process.Follows.settleLater {q' : Process} (h : q.Follows w q') : ∀ models, q.Follows w (q'.settleLater models)
  | none => ⟨h.memoryVersions, h.resolved, h.raised⟩
  | some _ => ⟨h.memoryVersions, h.resolved, h.raised⟩

/-- An invalidation resolves, and is covered where its process is up to date. -/
theorem World.Kept.resolve (hw : w.Kept) (hi : i.Kept w)
    (hversions : q.memoryVersions = (w.processes i.process).memoryVersions)
    (hresolved : q.resolved = (w.processes i.process).resolved) (hmemory : q.memory = (w.processes i.process).memory)
    (hraised : q.connection = .raised → (w.processes i.process).connection = .raised)
    (hup : q.UpToDate → (w.processes i.process).UpToDate ∧ Covers w.versions (i.names, i.began)) :
    (w.resolve i q).Kept := by
  have h := hw.processes i.process
  have hq : Process.Kept w.versions w.clock { q with resolved := (i.names, i.began) :: q.resolved } := by
    refine ⟨hversions ▸ h.bounded, hversions ▸ hmemory ▸ h.memory, fun j hj => ?_, fun j hj => ?_, fun hnow j hj => ?_⟩
    all_goals rcases List.mem_cons.mp hj with rfl | hold
    · exact hi.past
    · exact h.past j (hresolved ▸ hold)
    · exact hversions ▸ hi.inMemory
    · exact hversions ▸ h.inMemory j (hresolved ▸ hold)
    · exact (hup hnow).2
    · exact h.inRedis (hup hnow).1 j (hresolved ▸ hold)
  have hfollows : (w.processes i.process).Follows w { q with resolved := (i.names, i.began) :: q.resolved } :=
    ⟨hversions ▸ .refl _, fun j hj => List.mem_cons_of_mem _ (hresolved ▸ hj), fun hnow => .inl (hraised hnow)⟩
  cases hstatement : i.statement with
  | none =>
      simp only [World.resolve, hstatement]
      exact hw.update hq hfollows
  | some s =>
      simp only [World.resolve, hstatement]
      have hkept := hw.update (hq.settleLater s.operation.models) (hfollows.settleLater s.operation.models)
      refine hkept.setWrites fun wr hwr => ?_
      obtain ⟨wr, hold, rfl⟩ := List.mem_map.mp hwr
      split
      case isFalse => exact .inl hold
      case isTrue hs =>
        obtain ⟨hprocess, hnames, hexecuted⟩ := hi.statement s hstatement
        refine .inr fun hout => ⟨(hkept.writes wr hold hout).1, fun _ => ?_⟩
        refine ⟨(i.names, i.began), ?_, ?_, ?_⟩
        · simp [hs, hprocess]
        · simp [hs, hnames]
        · simpa [hs] using hexecuted

/-! ### Calls -/

theorem World.Kept.found (hw : w.Kept) (hk : key.Dated w p w.clock) (hafter : ForSeen key.name seen (key.IsAfter w p))
    {o : Option Entry} (ho : ∀ e ∈ o, e.isAt key = true ∧ e.Dated (w.versionsOf p key.source)) :
    (w.found p key seen o).Kept := by
  cases o with
  | none =>
      refine hw.next ⟨fun k hmem => ?_, hafter.imp fun e _ _ h => h.1⟩
      cases hmem
      exact hk
  | some e =>
      obtain ⟨hat, hdated⟩ := ho e rfl
      obtain ⟨hname, hversions⟩ : e.name = key.name ∧ e.versions = key.versions := by simpa [Entry.isAt] using hat
      refine hw.answer (hafter.imp fun c _ _ h => Versions.Before.le_of_after ?_ h.2)
      rw [← hname, ← hversions]
      exact hdated

theorem mem_remember {memory : List Entry} {began : ℕ} {e : Entry} (h : e ∈ remember memoryEntries memory key began) :
    e ∈ memory ∨ e = key.entry began := by
  simp only [remember] at h
  split at h
  · exact .inl h
  · split at h
    · obtain ⟨e', he', rfl⟩ := List.mem_map.mp h
      split
      · exact .inr rfl
      · exact .inl (List.mem_of_mem_drop he')
    · rcases List.mem_append.mp h with hold | hone
      · exact .inl (List.mem_of_mem_drop hold)
      · exact .inr (List.mem_singleton.mp hone)

/-! ### Steps -/

/-- What the connection gives: Redis where the process is up to date, its memory where it waits. -/
theorem Process.redis_eq_some {store : Store} (h : q.redis = some store) :
    q.connection = .on ∧ store = .redis ∨ q.connection = .off true ∧ store = .memory := by
  unfold Process.redis at h
  split at h
  case h_1 hon => exact .inl ⟨hon, by simpa using h.symm⟩
  case h_2 hoff => exact .inr ⟨hoff, by simpa using h.symm⟩
  case h_3 => cases h

theorem find?_isAt {entries : List Entry} (hs : ∀ e ∈ entries, e.Dated s) :
    ∀ e ∈ entries.find? (·.isAt key), e.isAt key = true ∧ e.Dated s := fun e he =>
  ⟨List.find?_some (p := fun e : Entry => e.isAt key) he, hs e (List.mem_of_find?_eq_some he)⟩

/-- Nothing is found in the store that the key is not of. -/
theorem find?_isAt_of_not_any {entries : List Entry} (h : entries.any (·.isAt key) = false) :
    entries.find? (·.isAt key) = none := by
  rw [List.find?_eq_none]
  exact fun e he hat => List.any_eq_false.mp h e he hat

theorem World.Kept.goOn {t : Task} (hw : w.Kept) (ht : t.Kept w) (hcareful : w.careful (.goOn t) = true)
    (h : w.goOn memoryEntries t = some w') : w'.Kept := by
  cases t with
  | currentVersions p name seen =>
      obtain ⟨store, hredis, rfl⟩ := Option.map_eq_some_iff.mp h
      have hp := hw.processes p
      rcases Process.redis_eq_some hredis with ⟨hon, rfl⟩ | ⟨-, rfl⟩
      · refine hw.next (ForSeen.imp ht fun e _ _ ⟨j, hj, hin, hle⟩ => ⟨hle.trans (hp.past j hj), ?_⟩)
        exact (hp.inRedis (.inl hon) j hj e.1 hin).imp hle.trans hle.trans
      · refine hw.next ⟨hp.bounded.before_current, ForSeen.imp ht fun e _ hname ⟨j, hj, hin, hle⟩ => ?_⟩
        refine ⟨hle.trans (hp.past j hj), ?_⟩
        rcases hp.inMemory j hj e.1 hin with hall | hone
        · exact Versions.after_current List.mem_cons_self (hle.trans hall)
        · exact Versions.after_current hname (hle.trans hone)
  | mGet p name seen =>
      cases h
      refine hw.next ⟨hw.bounded.before_current, ForSeen.imp ht fun e _ hname ⟨hpast, hcover⟩ => ⟨hpast, ?_⟩⟩
      rcases hcover with hall | hone
      · exact Versions.after_current List.mem_cons_self hall
      · exact Versions.after_current hname hone
  | read p key seen =>
      obtain ⟨store, hredis, rfl⟩ := Option.map_eq_some_iff.mp h
      rcases Process.redis_eq_some hredis with ⟨-, rfl⟩ | ⟨-, rfl⟩
      · exact hw.next ht
      · refine hw.found ht.1 ht.2 ?_
        simp only [World.careful, hredis, ne_eq, not_true_eq_false, decide_false, Bool.or_false, Bool.or_eq_true,
          decide_eq_true_eq, Bool.not_eq_true'] at hcareful
        rcases hcareful with hsource | hnone
        · rw [hsource]
          exact find?_isAt (hw.processes p).memory
        · rw [find?_isAt_of_not_any hnone]
          nofun
  | get p key seen =>
      cases h
      refine hw.found ht.1 ht.2 ?_
      simp only [World.careful, Bool.or_eq_true, decide_eq_true_eq, Bool.not_eq_true'] at hcareful
      rcases hcareful with hsource | hnone
      · rw [hsource]
        exact find?_isAt hw.entries
      · rw [find?_isAt_of_not_any hnone]
        nofun
  | load p name key seen began =>
      cases h
      cases key with
      | none => exact hw.answer ht.2
      | some key => exact (hw.answer ht.2).next (ht.1 key rfl)
  | write p key began =>
      obtain ⟨store, hredis, rfl⟩ := Option.map_eq_some_iff.mp h
      rcases Process.redis_eq_some hredis with ⟨-, rfl⟩ | ⟨-, rfl⟩
      · exact hw.next ht
      · have hp := hw.processes p
        have hsource : key.source = .memory := by simpa [World.careful, hredis] using hcareful
        refine hw.update ⟨hp.bounded, fun e he => ?_, hp.past, hp.inMemory, hp.inRedis⟩ ⟨.refl _, fun _ => id, .inl⟩
        rcases mem_remember he with hold | rfl
        · exact hp.memory e hold
        · have hdated : key.Dated w p began := ht
          rwa [Key.Dated, hsource] at hdated
  | set p key began =>
      cases h
      have hsource : key.source = .redis := by simpa [World.careful] using hcareful
      refine hw.setEntries fun e he => ?_
      rcases List.mem_cons.mp he with rfl | hold
      · have hdated : key.Dated w p began := ht
        rw [Key.Dated, hsource] at hdated
        exact .inr hdated
      · exact .inl (List.mem_filter.mp hold).1
  | hook s =>
      simp only [World.goOn] at h
      split at h
      · cases h
        exact hw
      · cases h
        exact hw.invalidate fun s' hs' => by
          cases hs'
          exact ⟨rfl, rfl, ht⟩
  | invalidateTables i =>
      obtain ⟨store, hredis, rfl⟩ := Option.map_eq_some_iff.mp h
      have hi : i.Kept w := ht
      rcases Process.redis_eq_some hredis with ⟨hon, rfl⟩ | ⟨hoff, rfl⟩
      · exact hw.next ⟨hi, fun _ => .inl, fun hraised => by rw [hon] at hraised; cases hraised⟩
      · refine hw.resolve hi rfl rfl rfl (fun hnow => hnow) fun hup => ?_
        simp [Process.UpToDate, hoff] at hup
  | incr i names =>
      obtain ⟨hi, hnames, hraised⟩ := ht
      cases names with
      | nil =>
          cases h
          refine hw.resolve hi rfl rfl rfl id fun hup => ⟨hup, fun t ht => .inr ?_⟩
          exact (hnames t ht).resolve_left List.not_mem_nil
      | cons t names =>
          cases h
          refine (hw.raise t).next ⟨?_, fun u hu => ?_, fun hnow => ?_⟩
          · exact ⟨hi.past, hi.inMemory, hi.statement⟩
          · rcases eq_or_ne u t with rfl | hne
            · exact .inr (hi.past.trans_eq Versions.latest_raise_self.symm)
            · refine (hnames u hu).imp (fun hmem => (List.mem_cons.mp hmem).resolve_left hne) fun hle => ?_
              exact hle.trans_eq (Versions.latest_raise_of_ne hne).symm
          · exact (hraised hnow).trans (hw.bounded.extends_raise.latest .all)

theorem World.Kept.fail {t : Task} (hw : w.Kept) (ht : t.Kept w) : (w.fail t).Kept := by
  cases t with
  | mGet p name seen => exact hw.next ⟨nofun, ForSeen.imp ht fun _ _ _ h => h.1⟩
  | get p key seen => exact hw.next ⟨nofun, ht.2.imp fun _ _ _ h => h.1⟩
  | incr i names =>
      obtain ⟨hi, -, hraised⟩ := ht
      refine (hw.setStray _).resolve ⟨hi.past, hi.inMemory, hi.statement⟩ rfl rfl rfl ?_ ?_
      all_goals
        dsimp only
        intro h
        cases hc : (w.processes i.process).connection <;> simp [Process.UpToDate, Connection.drop, hc] at h ⊢
      exact fun t _ => .inl (hraised hc)
  | _ => exact hw

/-- A write of a table that the answer reads names it to the hook. -/
theorem Operation.mem_namesOf_of_changes {operation : Operation} {t : Table} (h : t ∈ operation.changes)
    (hname : t ∈ name.names) : t ∈ namesOf operation.models := by
  cases operation with
  | model touched =>
      obtain ⟨m, hm, rfl⟩ := List.mem_map.mp h
      have hread : m ∈ name.answer.tables := by simpa [Name.names] using hname
      simpa [Operation.models, namesOf] using ⟨hm, Answer.isCacheTable_of_mem hread⟩
  | raw written =>
      cases written with
      | none => exact h
      | some written => simpa [Operation.models, Operation.changes, namesOf] using h

theorem World.Kept.begin (hw : w.Kept) (hcareful : w.careful (.begin p name) = true) :
    (w.next (.currentVersions p name (w.seen p))).Kept := by
  refine hw.next fun e he hname => ?_
  obtain ⟨wr, hwr, he⟩ := List.mem_flatMap.mp he
  split at he
  case isFalse => cases he
  case isTrue hack =>
    obtain ⟨hinvalidated, hprocess⟩ : wr.invalidated = true ∧ wr.statement.process = p := by simpa using hack
    cases hcommitted : wr.committedAt with
    | none => simp [hcommitted] at he
    | some c =>
        obtain ⟨t, ht, rfl⟩ : ∃ t ∈ wr.statement.operation.changes, (t, c) = e := by simpa [hcommitted] using he
        cases hin : wr.statement.inTransaction with
        | false =>
            obtain ⟨hc, hresolved⟩ := hw.writes wr hwr hin
            obtain rfl : c = wr.statement.executedAt := by simpa [hcommitted] using hc
            obtain ⟨j, hj, hnames, hle⟩ := hresolved hinvalidated
            exact ⟨j, hprocess ▸ hj, hnames ▸ Operation.mem_namesOf_of_changes ht hname, hle⟩
        | true =>
            have hwrite := List.all_eq_true.mp hcareful wr hwr
            simp only [hinvalidated, hprocess, hin, hcommitted, decide_true, Bool.and_self, Bool.not_true, Bool.false_or,
              Option.all_some, List.all_eq_true, Bool.or_eq_true, decide_eq_true_eq] at hwrite
            have hlater := (hwrite t ht).resolve_left (not_not_intro hname)
            obtain ⟨j, hj, h⟩ := List.any_eq_true.mp hlater
            exact ⟨j, hj, by simpa using h⟩

/-- Redis is not connected, or not yet. -/
theorem World.Kept.disconnect {c : Connection} (hw : w.Kept) (hon : c ≠ .on) (hraised : c ≠ .raised) :
    (w.update p { w.processes p with connection := c }).Kept :=
  hw.updateSame rfl rfl (fun _ => id) (fun h => absurd h hraised) fun hup =>
    .inr (.inr ((hup.resolve_left hon).resolve_left hraised))

theorem World.Kept.act {m : Move} (hw : w.Kept) (hcareful : w.careful m = true)
    (h : w.act memoryEntries m = some w') : w'.Kept := by
  cases m with
  | begin p name =>
      cases h
      exact hw.begin hcareful
  | goOn t =>
      obtain ⟨hmem, h⟩ := Option.ite_none_right_eq_some.mp h
      exact (hw.erase t).goOn ((hw.tasks t hmem).later (.of_eq le_rfl rfl rfl)) hcareful h
  | fail t =>
      obtain ⟨hmem, h⟩ := Option.ite_none_right_eq_some.mp h
      cases h
      have hmem : t ∈ w.tasks ∧ t.canFail = true := by simpa using hmem
      exact (hw.erase t).fail ((hw.tasks t hmem.1).later (.of_eq le_rfl rfl rfl))
  | execute p operation inTransaction =>
      cases h
      refine World.Kept.next (hw.setWrites fun wr hwr => ?_) (t := .hook ⟨p, operation, inTransaction, w.clock⟩) le_rfl
      rcases List.mem_cons.mp hwr with rfl | hold
      · exact .inr fun hout => ⟨by simpa using hout, nofun⟩
      · exact .inl hold
  | commit s =>
      cases h
      refine hw.setWrites fun wr hwr => ?_
      obtain ⟨wr, hold, rfl⟩ := List.mem_map.mp hwr
      split
      case isFalse => exact .inl hold
      case isTrue hopen =>
        refine .inr fun hout => ?_
        have hcommitted := (hw.writes wr hold hout).1
        simp [hcommitted] at hopen
  | settle p =>
      obtain ⟨-, h⟩ := Option.ite_none_right_eq_some.mp h
      cases h
      refine World.Kept.invalidate (hw.updateSame ?_ ?_ (fun _ => ?_) ?_ ?_) nofun
      · rfl
      · rfl
      · exact id
      · exact id
      · exact id
  | connect p =>
      obtain ⟨hoff, h⟩ := Option.ite_none_right_eq_some.mp h
      cases h
      exact hw.disconnect nofun nofun
  | connected p =>
      obtain ⟨hattempting, h⟩ := Option.ite_none_right_eq_some.mp h
      cases h
      split
      case isTrue => exact hw.disconnect nofun nofun
      case isFalse hstale =>
        have hstale : (w.processes p).staleAfterReconnect = false := Bool.eq_false_iff.mpr hstale
        have hmissed : (w.processes p).missed = false := by simpa [World.careful, hstale] using hcareful
        exact hw.updateSame rfl rfl nofun nofun fun _ => .inr (.inr ⟨hstale, hmissed⟩)
  | raise p =>
      obtain ⟨hraising, h⟩ := Option.ite_none_right_eq_some.mp h
      cases h
      have hp := (hw.raise .all).processes p
      have hall : w.clock ≤ (w.versions.raise w.clock .all).latest .all := Versions.latest_raise_self.ge
      refine (hw.raise .all).update ⟨hp.bounded, hp.memory, hp.past, hp.inMemory, fun _ j hj t _ => .inl ?_⟩
        ⟨.refl _, fun _ => id, fun _ => .inr hall⟩
      exact (hp.past j hj).trans hall
  | ready p =>
      obtain ⟨hraised, h⟩ := Option.ite_none_right_eq_some.mp h
      cases h
      exact hw.updateSame rfl rfl nofun nofun fun _ => .inr (.inl hraised)
  | lose p =>
      cases h
      exact hw.disconnect nofun nofun
  | elapse p =>
      obtain ⟨hoff, h⟩ := Option.ite_none_right_eq_some.mp h
      cases h
      exact hw.disconnect nofun nofun
  | arrive t =>
      obtain ⟨hstray, h⟩ := Option.ite_none_right_eq_some.mp h
      cases h
      exact (hw.setStray (w.stray.erase t)).raise t
  | expire e =>
      cases h
      exact hw.setEntries fun e' he' => .inl (List.mem_of_mem_erase he')
  | expireInMemory p e =>
      cases h
      exact hw.updateSame rfl rfl (fun e' he' => List.mem_of_mem_erase he') id id

theorem World.Kept.step {m : Move} (hw : w.Kept) (hcareful : w.careful m = true)
    (h : w.step memoryEntries m = some w') : w'.Kept := by
  obtain ⟨w₁, hact, rfl⟩ := Option.map_eq_some_iff.mp h
  exact (hw.act hcareful hact).tick

/-- A `cached()` call that reads Redis, up to what it finds there. -/
def readMoves (p : ℕ) (key : Key) (seen : List (Table × ℕ)) : List Move :=
  [.begin p key.name, .goOn (.currentVersions p key.name seen), .goOn (.mGet p key.name seen),
    .goOn (.read p key seen), .goOn (.get p key seen)]

/-- One that finds nothing goes on to load its answer, and keeps it in Redis. -/
def loadMoves (p : ℕ) (key : Key) (seen : List (Table × ℕ)) (began : ℕ) : List Move :=
  [.goOn (.load p key.name (some key) seen began), .goOn (.write p key began), .goOn (.set p key began)]

/-- A write, and its hook up to where it asks for the connection. -/
def writeMoves (s : Statement) : List Move := [.execute s.process s.operation s.inTransaction, .goOn (.hook s)]

def incrMoves (i : Invalidation) : List Move :=
  [.goOn (.invalidateTables i), .goOn (.incr i i.names), .goOn (.incr i [])]

/-- An account's to-dos, under the versions of everything and of its table. -/
def todosKey (versions : List ℕ) (source : Store) : Key := ⟨⟨.todos, "6f1c"⟩, versions, source⟩

def addTodo (p : ℕ) (inTransaction : Bool) (executedAt : ℕ) : Statement :=
  ⟨p, .model [.todo], inTransaction, executedAt⟩

/-- The hook's invalidation for it. -/
def addedTodo (p : ℕ) (inTransaction : Bool) (executedAt : ℕ) : Invalidation :=
  ⟨p, [.model .todo], executedAt + 1, some (addTodo p inTransaction executedAt)⟩

theorem exists_not_fresh {moves : List Move}
    (h : (run (World.step memoryEntries) .started moves).any (·.log.any (!·.Fresh)) = true) :
    ∃ w, run (World.step memoryEntries) .started moves = some w ∧ ∃ a ∈ w.log, ¬a.Fresh := by
  obtain ⟨w, hrun, hstale⟩ := (Option.any_eq_true _ _).mp h
  obtain ⟨a, ha, hnot⟩ := List.any_eq_true.mp hstale
  exact ⟨w, hrun, a, ha, by simpa using hnot⟩

/-- The tables that a transaction wrote are settled before it commits: the to-dos that are read in between stay. -/
theorem stale_after_commit : ∃ w, run (World.step 2000) .started
    ([.connect 0, .connected 0] ++
      writeMoves (addTodo 0 true 2) ++ incrMoves (addedTodo 0 true 2) ++
      [.settle 0] ++ incrMoves ⟨0, [.model .todo], 7, none⟩ ++
      readMoves 0 (todosKey [0, 2] .redis) [] ++ loadMoves 0 (todosKey [0, 2] .redis) [] 15 ++
      [.commit (addTodo 0 true 2)] ++
      readMoves 0 (todosKey [0, 2] .redis) [(.model .todo, 19)]) = some w ∧ ∃ a ∈ w.log, ¬a.Fresh :=
  exists_not_fresh (by decide +kernel)

/-- A call reads the versions in memory, and with them an entry of Redis, where others have written too. -/
theorem stale_by_other_versions : ∃ w, run (World.step 2000) .started
    ([.connect 0, .connected 0, .connect 1, .connected 1] ++
      writeMoves (addTodo 0 false 4) ++ incrMoves (addedTodo 0 false 4) ++
      readMoves 0 (todosKey [0, 1] .redis) [(.model .todo, 4)] ++
      loadMoves 0 (todosKey [0, 1] .redis) [(.model .todo, 4)] 13 ++
      writeMoves (addTodo 1 false 17) ++ incrMoves (addedTodo 1 false 17) ++
      [.lose 1, .begin 1 ⟨.todos, "6f1c"⟩, .goOn (.currentVersions 1 ⟨.todos, "6f1c"⟩ [(.model .todo, 17)]),
        .elapse 1, .connect 1, .connected 1,
        .goOn (.read 1 (todosKey [0, 1] .memory) [(.model .todo, 17)]),
        .goOn (.get 1 (todosKey [0, 1] .memory) [(.model .todo, 17)])]) = some w ∧ ∃ a ∈ w.log, ¬a.Fresh :=
  exists_not_fresh (by decide +kernel)

end Pokyh.Cache

import Pokyh.Cluster.Attempts

/-!
# Cluster — Passes

What a pass of `processItems` does to the version registry, and which items it speaks of.

* `Built`: the items `buildWorkItem` makes; two of them for one row have the same table and hash.
* `applyGroup_spec`, `resolveDuplicate_spec`: the versions a group or a duplicate leaves.
* `PassInv`: the invariant of the careful path.  The registry only grows, and what is answered `a`
  or `s` is covered by it (`carefulPass_inv`).
-/

namespace Pokyh.Cluster
open Pokyh.Lib

variable {node : Node} {S : Schema} {db db' : Database} {item : WorkItem} {items : List WorkItem}

/-! ### Items that were built -/

/-- The item is one `buildWorkItem` makes, whatever its slot and its deferral. -/
structure Built (node : Node) (item : WorkItem) : Prop where
  table : node.table? item.table.name = some item.table
  hash : item.hash = node.computePkHash item.key
  wire_h : item.wire.item.h = item.hash
  wire_v : item.wire.item.v = item.version
  wire_o : item.wire.item.o = item.origin

theorem buildWorkItem_ok {table : TableInfo} {cols : List String} {wire : WireItem}
    {fromPeer : String} (ht : node.table? table.name = some table)
    (h : buildWorkItem node table cols wire fromPeer = .ok item) :
    Built node item ∧ item.table = table ∧ item.wire = ⟨cols, wire⟩ ∧ item.fromPeer = fromPeer ∧
      item.deferred = none := by
  unfold buildWorkItem at h
  split at h
  · cases h
  split at h
  · cases h
  next hh =>
    have hh : wire.h = node.computePkHash wire.k := (not_not.mp hh).symm
    dsimp only at h
    split at h
    · cases h
      exact ⟨⟨ht, hh, rfl, rfl, rfl⟩, rfl, rfl, rfl, rfl⟩
    · split at h
      · cases h
      · split at h
        · cases h
        · split at h
          · cases h
          · cases h
            exact ⟨⟨ht, hh, rfl, rfl, rfl⟩, rfl, rfl, rfl, rfl⟩

/-- Built items of tables of one name are of one table. -/
theorem Built.table_eq {a b : WorkItem} (ha : Built node a) (hb : Built node b)
    (h : a.table.name = b.table.name) : a.table = b.table := by
  have h₁ := ha.table
  rw [h, hb.table] at h₁
  exact (Option.some.inj h₁).symm

/-! ### A group -/

theorem updateColumn_registry {column : String} {v : Value}
    (h : updateColumn S db item column v = .ok db') : db'.registry = db.registry := by
  unfold updateColumn at h
  split at h
  · cases h; rfl
  · exact (updateRow_registry h).1

theorem parkMember_registry {draws : Draws} {indexes : List UniqueIndex} {done : Bool}
    (h : parkMember S draws db item indexes = .ok (done, db')) : db'.registry = db.registry := by
  induction indexes generalizing db with
  | nil => cases h; rfl
  | cons index indexes ih =>
      unfold parkMember at h
      split at h
      · cases h; rfl
      · split at h
        · cases h; rfl
        · split at h
          · cases h
          · next hu => rw [ih h, updateColumn_registry hu]

theorem parkGroup_registry {draws : Draws} {before : Database} {group : List WorkItem} {done : Bool}
    (h : parkGroup S draws before db group = .ok (done, db')) : db'.registry = db.registry := by
  induction group generalizing db with
  | nil => cases h; rfl
  | cons item group ih =>
      unfold parkGroup at h
      split at h
      · exact ih h
      · split at h
        · cases h
        · next hp => cases h; exact parkMember_registry hp
        · next hp => rw [ih h, parkMember_registry hp]

/-- Writing the members of a group, all of them newer than what is stored, of different rows. -/
theorem writeGroup_spec {before : Database} {group : List WorkItem}
    (hnd : (group.map WorkItem.itemKey).Nodup)
    (hn : ∀ m ∈ group, isNewer m.rowVersion (db.readVersion m.table.name m.hash) = true)
    (h : writeGroup S before db group = .ok db') :
    Grows db db' ∧ ∀ m ∈ group, Covered db' m := by
  induction group generalizing db with
  | nil => cases h; exact ⟨Grows.refl _, nofun⟩
  | cons item group ih =>
      unfold writeGroup at h
      split at h
      · cases h
      next db₁ hw =>
      have hi := hn item List.mem_cons_self
      have hg : Grows db (writeItemVersion db₁ item) := Grows.write hi hw
      rw [List.map_cons, List.nodup_cons] at hnd
      have hrest : ∀ m ∈ group, isNewer m.rowVersion
          ((writeItemVersion db₁ item).readVersion m.table.name m.hash) = true := by
        intro m hm
        have hne : (m.table.name, m.hash) ≠ item.itemKey := fun he =>
          hnd.1 (List.mem_map.mpr ⟨m, hm, he⟩)
        rw [readVersion_writeItemVersion, if_neg hne,
          Database.readVersion_congr (writeRow_registry hw).1]
        exact hn m (List.mem_cons_of_mem _ hm)
      obtain ⟨hg', hc⟩ := ih hnd.2 hrest h
      refine ⟨hg.trans hg', fun m hm => ?_⟩
      rcases List.mem_cons.mp hm with rfl | hm
      · exact covered_writeItemVersion.grows hg'
      · exact hc m hm

/-- A group of changes to different rows: the versions grow, and when it is applied they are at
least those of the members. -/
theorem applyGroup_spec (S : Schema) (fault : Option ℕ) (draws : Draws) (db : Database)
    {group : List WorkItem} (hnd : (group.map WorkItem.itemKey).Nodup) :
    Grows db (applyGroup S fault draws db group).2 ∧
      ((applyGroup S fault draws db group).1 = true →
        ∀ m ∈ group, Covered (applyGroup S fault draws db group).2 m) := by
  unfold applyGroup
  split
  · exact ⟨Grows.refl db, nofun⟩
  split
  · exact ⟨Grows.refl db, nofun⟩
  next hall =>
  have hn : ∀ m ∈ group, isNewer m.rowVersion (db.readVersion m.table.name m.hash) = true := by
    simpa using hall
  split
  · exact ⟨Grows.refl db, nofun⟩
  · next hp => exact ⟨Grows.of_registry (parkGroup_registry hp), nofun⟩
  · next db₁ hp =>
    split
    · exact ⟨Grows.refl db, nofun⟩
    · next hw =>
      have hreg := parkGroup_registry hp
      obtain ⟨hg, hc⟩ := writeGroup_spec hnd
        (fun m hm => by rw [Database.readVersion_congr hreg]; exact hn m hm) hw
      exact ⟨(Grows.of_registry hreg).trans hg, fun _ => hc⟩

/-! ### A duplicate -/

theorem resolveDuplicate_spec (node : Node) (fault : Option ℕ) (db : Database) (item : WorkItem)
    (otherKey : List String) :
    Grows db (resolveDuplicate node fault db item otherKey).2 ∧
      ((resolveDuplicate node fault db item otherKey).1 = true →
        Covered (resolveDuplicate node fault db item otherKey).2 item) := by
  unfold resolveDuplicate
  dsimp only
  split
  · exact ⟨Grows.refl db, nofun⟩
  split
  · exact ⟨Grows.refl db, nofun⟩
  next hn =>
  have hn : isNewer item.rowVersion (db.readVersion item.table.name item.hash) = true := by
    simpa using hn
  have hreg : ∀ (b : Bool) (id : RowId),
      (if b = true then deleteRow node.schema db id else db).registry = db.registry := by
    intro b id
    cases b <;> rfl
  split
  · -- The incoming row loses: the version just above its own is stored for it.
    have hup : item.rowVersion < ⟨item.version + 1, node.nodeId⟩ :=
      RowVersion.lt_of_version_lt (Nat.lt_succ_self _)
    refine ⟨(Grows.of_registry (hreg _ _)).trans (Grows.writeVersion ?_), fun _ => ⟨_, ?_, hup.le⟩⟩
    · rw [Database.readVersion_congr (hreg _ _), isNewer_iff]
      exact fun c hc => (isNewer_iff.mp hn c hc).trans hup
    · rw [Database.readVersion_writeVersion]
      exact if_pos rfl
  · split
    · exact ⟨Grows.refl db, nofun⟩
    · next db₃ hw =>
      refine ⟨fun t h v hv => ?_, fun _ => ⟨item.rowVersion, ?_, le_rfl⟩⟩
      · rw [Database.readVersion_writeVersion]
        split
        · next he =>
          obtain ⟨rfl, rfl⟩ := Prod.mk.inj he
          exact ⟨_, rfl, (isNewer_iff.mp hn v hv).le⟩
        · rw [Database.readVersion_congr (writeRow_registry hw).1, Database.readVersion_writeVersion]
          split
          · next he =>
            obtain ⟨rfl, rfl⟩ := Prod.mk.inj he
            refine ⟨_, rfl, (RowVersion.lt_of_version_lt ?_).le⟩
            simp [hv]
          · rw [Database.readVersion_congr (hreg _ _)]
            exact ⟨v, hv, le_rfl⟩
      · rw [Database.readVersion_writeVersion]
        exact if_pos rfl

/-! ### Collecting a group -/

/-- The members of a group are rows among the items of the pass, all different. -/
structure GroupInv (items : List WorkItem) (g : Group) : Prop where
  subset : ∀ m ∈ g.members, m ∈ items
  kept : ∀ m ∈ g.members, m.deleted = false
  nodup : (g.members.map WorkItem.itemKey).Nodup

theorem pendingOf_some {colliding : List WorkItem} {key : String × String}
    (h : pendingOf colliding key = some item) : item ∈ colliding ∧ item.itemKey = key := by
  have h₁ := List.mem_of_find?_eq_some h
  have h₂ := List.find?_some h
  exact ⟨by simpa using h₁, by simpa using h₂⟩

theorem examineIndex_inv {p : Pass} {member : WorkItem} {g : Group} {index : UniqueIndex}
    (hb : ∀ i ∈ items, Built node i) (hcol : ∀ i ∈ p.colliding, i ∈ items)
    (h : member ∈ g.members ∧ GroupInv items g) :
    member ∈ (examineIndex node p member g index).members ∧
      GroupInv items (examineIndex node p member g index) := by
  obtain ⟨hm, hsub, hkept, hnd⟩ := h
  unfold examineIndex
  split
  · exact ⟨hm, hsub, hkept, hnd⟩
  · split
    · exact ⟨hm, hsub, hkept, hnd⟩
    · next otherKey _ =>
      dsimp only
      split
      · exact ⟨hm, hsub, hkept, hnd⟩
      · next hnot =>
        split
        · exact ⟨hm, hsub, hkept, hnd⟩
        · next partner hp =>
          obtain ⟨hpc, hpk⟩ := pendingOf_some hp
          split
          · next hfree =>
            refine ⟨List.mem_append_left _ hm, ?_, ?_, ?_⟩
            · intro m hm'
              rcases List.mem_append.mp hm' with h | h
              · exact hsub m h
              · rw [List.mem_singleton.mp h]
                exact hcol _ hpc
            · intro m hm'
              rcases List.mem_append.mp hm' with h | h
              · exact hkept m h
              · rw [List.mem_singleton.mp h]
                exact hfree.2
            · rw [List.map_append, List.nodup_append]
              refine ⟨hnd, by simp, ?_⟩
              rintro _ hk _ hk' rfl
              obtain ⟨c, hc, hck⟩ := List.mem_map.mp hk
              -- A member of the partner's row would have been found among the members.
              have hk'' : c.itemKey = (member.table.name, node.computePkHash otherKey) := by
                rw [hck, List.mem_singleton.mp hk', hpk]
              obtain ⟨hname, hhash⟩ := Prod.mk.inj hk''
              have htab := Built.table_eq (hb c (hsub c hc)) (hb member (hsub member hm)) hname
              refine hnot (List.any_eq_true.mpr ⟨c, hc, ?_⟩)
              simp [htab, hhash]
          · exact ⟨hm, hsub, hkept, hnd⟩

theorem growGroup_inv {p : Pass} (hb : ∀ i ∈ items, Built node i)
    (hcol : ∀ i ∈ p.colliding, i ∈ items) {fuel cursor : ℕ} {g : Group} (h : GroupInv items g) :
    GroupInv items (growGroup node p fuel cursor g) := by
  induction fuel generalizing cursor g with
  | zero => exact h
  | succ fuel ih =>
      unfold growGroup
      split
      · exact h
      · split
        · exact h
        · next member hmem =>
          have hm : member ∈ g.members := List.mem_of_getElem? hmem
          exact ih (foldl_invariant (f := examineIndex node p member)
            (P := fun g => member ∈ g.members ∧ GroupInv items g)
            (fun _ _ _ h => examineIndex_inv hb hcol h) ⟨hm, h⟩).2

theorem collectGroup_inv {p : Pass} {entry : WorkItem} {blocker : UniqueIndex × List String}
    (hb : ∀ i ∈ items, Built node i) (hcol : ∀ i ∈ p.colliding, i ∈ items) (he : entry ∈ items)
    (hd : entry.deleted = false) : GroupInv items (collectGroup node p entry blocker) :=
  growGroup_inv hb hcol ⟨by simpa using he, by simpa using hd, by simp⟩

/-! ### The invariant of the careful path -/

/-- `p` is a state of a pass over `items` that began in `db`. -/
structure PassInv (items : List WorkItem) (db : Database) (p : Pass) : Prop where
  grows : Grows db p.db
  answered : ∀ e ∈ p.results, e.1 ∈ items ∧ e.2 ≠ .d ∧ (e.2 = .a ∨ e.2 = .s → Covered p.db e.1)
  colliding : ∀ i ∈ p.colliding, i ∈ items
  waiting : ∀ w ∈ p.waiting, w.item ∈ items

variable {env : Surroundings} {p : Pass}

theorem PassInv.store (h : PassInv items db p) (hg : Grows p.db db') :
    PassInv items db (p.store db') where
  grows := h.grows.trans hg
  answered e he := ⟨(h.answered e he).1, (h.answered e he).2.1,
    fun ha => ((h.answered e he).2.2 ha).grows hg⟩
  colliding := h.colliding
  waiting := h.waiting

theorem PassInv.settle (h : PassInv items db p) (result : ItemResult) (hi : item ∈ items)
    (hd : result ≠ .d) (hc : result = .a ∨ result = .s → Covered p.db item) :
    PassInv items db (p.settle item result) where
  grows := h.grows
  answered e he := by
    rcases List.mem_append.mp he with he | he
    · exact h.answered e he
    · obtain rfl := List.mem_singleton.mp he
      exact ⟨hi, hd, hc⟩
  colliding := h.colliding
  waiting := h.waiting

theorem PassInv.clash (h : PassInv items db p) (hi : item ∈ items) :
    PassInv items db (p.clash item) where
  grows := h.grows
  answered := h.answered
  colliding i hmem := by
    rcases List.mem_append.mp hmem with hmem | hmem
    · exact h.colliding i hmem
    · rwa [List.mem_singleton.mp hmem]
  waiting := h.waiting

theorem PassInv.wait (h : PassInv items db p) {reason : Reason} (hi : item ∈ items) :
    PassInv items db (p.wait item reason) where
  grows := h.grows
  answered := h.answered
  colliding := h.colliding
  waiting w hw := by
    rcases List.mem_append.mp hw with hw | hw
    · exact h.waiting w hw
    · rwa [List.mem_singleton.mp hw]

theorem PassInv.unwait (h : PassInv items db p) {entry : Waiting} :
    PassInv items db (p.unwait entry) :=
  ⟨h.grows, h.answered, h.colliding, fun w hw => h.waiting w (List.mem_of_mem_erase hw)⟩

theorem PassInv.handle (h : PassInv items db p) {handled : List WorkItem} :
    PassInv items db (p.handle handled) :=
  ⟨h.grows, h.answered, h.colliding, h.waiting⟩

theorem firstRound_inv (h : PassInv items db p) (hi : item ∈ items) :
    PassInv items db (firstRound node env p item) := by
  have hg := h.store (attempt_grows node.schema (env.at' .first item).fault p.db item)
  have hc := @attempt_covers node.schema p.db item (env.at' .first item).fault
  unfold firstRound
  generalize attempt node.schema (env.at' .first item).fault p.db item = o at hg hc
  obtain ⟨outcome, db'⟩ := o
  cases outcome with
  | applied => exact hg.settle .a hi nofun fun _ => hc (.inl rfl)
  | stale => exact hg.settle .s hi nofun fun _ => hc (.inr rfl)
  | conflict index otherKey => exact hg.clash hi
  | defer reason => exact hg.wait hi
  | reject => exact hg.settle .r hi nofun nofun

theorem secondRound_inv {entry : Waiting} (h : PassInv items db p) (hi : entry.item ∈ items) :
    PassInv items db (secondRound node env p entry) := by
  have hg := h.store (attempt_grows node.schema (env.at' .second entry.item).fault p.db entry.item)
  have hc := @attempt_covers node.schema p.db entry.item (env.at' .second entry.item).fault
  unfold secondRound
  split
  · exact h
  generalize attempt node.schema (env.at' .second entry.item).fault p.db entry.item = o at hg hc
  obtain ⟨outcome, db'⟩ := o
  cases outcome with
  | applied => exact (hg.settle .a hi nofun fun _ => hc (.inl rfl)).unwait
  | stale => exact (hg.settle .s hi nofun fun _ => hc (.inr rfl)).unwait
  | conflict index otherKey => exact (hg.clash hi).unwait
  | defer reason => exact hg
  | reject => exact hg

theorem settleAlone_inv {entry : WorkItem} {blocker : UniqueIndex × List String}
    (h : PassInv items db p) (hi : entry ∈ items) :
    PassInv items db (settleAlone node env p entry blocker) := by
  obtain ⟨hg, hc⟩ := resolveDuplicate_spec node (env.at' .duplicate entry).fault
    (p.handle [entry]).db entry blocker.2
  unfold settleAlone
  dsimp only
  split
  · split
    · next db' hr =>
      rw [hr] at hg hc
      exact (h.handle.store hg).settle .a hi nofun fun _ => hc rfl
    · next db' hr =>
      rw [hr] at hg
      exact (h.handle.store hg).wait hi
  · exact h.handle.wait hi

theorem collide_inv {entry : WorkItem} (hb : ∀ i ∈ items, Built node i) (h : PassInv items db p)
    (hi : entry ∈ items) : PassInv items db (collide node env p entry) := by
  have hg := h.store (attempt_grows node.schema (env.at' .colliding entry).fault p.db entry)
  have hc := @attempt_covers node.schema p.db entry (env.at' .colliding entry).fault
  unfold collide
  split
  · exact h
  generalize ho : attempt node.schema (env.at' .colliding entry).fault p.db entry = o at hg hc
  obtain ⟨outcome, db'⟩ := o
  cases outcome with
  | applied => exact hg.handle.settle .a hi nofun fun _ => hc (.inl rfl)
  | stale => exact hg.handle.settle .s hi nofun fun _ => hc (.inr rfl)
  | reject => exact hg.handle.settle .r hi nofun nofun
  | defer reason => exact hg.handle.wait hi
  | conflict index otherKey =>
      dsimp only
      split
      · have hgi : GroupInv items (collectGroup node (p.store db') entry (index, otherKey)) :=
          collectGroup_inv hb hg.colliding hi (attempt_conflict ho).2
        obtain ⟨hgg, hgc⟩ := applyGroup_spec node.schema (env.at' .group entry).fault env.draws
          (p.store db').db hgi.nodup
        split
        · next db'' hr =>
          rw [hr] at hgg hgc
          have hg' : PassInv items db ((p.store db').store db'') := hg.store hgg
          refine ⟨hg'.grows, fun e he => ?_, hg'.colliding, hg'.waiting⟩
          rcases List.mem_append.mp he with he | he
          · exact hg'.answered e he
          · obtain ⟨m, hm, rfl⟩ := List.mem_map.mp he
            exact ⟨hgi.subset m hm, nofun, fun _ => hgc rfl m hm⟩
        · next db'' hr =>
          rw [hr] at hgg
          exact settleAlone_inv (hg.store hgg) hi
      · exact settleAlone_inv hg hi

/-! ### A whole pass -/

def afterFirst (node : Node) (env : Surroundings) (db : Database) (ordered : List WorkItem) : Pass :=
  ordered.foldl (firstRound node env) ⟨db, [], [], [], []⟩

def afterSecond (node : Node) (env : Surroundings) (db : Database) (ordered : List WorkItem) : Pass :=
  (afterFirst node env db ordered).waiting.foldl (secondRound node env)
    (afterFirst node env db ordered)

theorem carefulPass_eq (node : Node) (env : Surroundings) (db : Database) (ordered : List WorkItem) :
    carefulPass node env db ordered =
      (afterSecond node env db ordered).colliding.foldl (collide node env)
        (afterSecond node env db ordered) := rfl

theorem afterFirst_inv : PassInv items db (afterFirst node env db items) := by
  have hstart : PassInv items db ⟨db, [], [], [], []⟩ :=
    { grows := Grows.refl db, answered := by simp, colliding := by simp, waiting := by simp }
  rw [afterFirst]
  exact foldl_invariant (fun _ _ hi h => firstRound_inv h hi) hstart

theorem afterSecond_inv : PassInv items db (afterSecond node env db items) := by
  rw [afterSecond]
  exact foldl_invariant (fun _ _ hi h => secondRound_inv h (afterFirst_inv.waiting _ hi))
    afterFirst_inv

/-- **The careful path** never makes a stored version older, and what it answers `a` or `s` is
covered by what is stored. -/
theorem carefulPass_inv {ordered : List WorkItem} (hb : ∀ i ∈ ordered, Built node i) :
    PassInv ordered db (carefulPass node env db ordered) := by
  rw [carefulPass_eq]
  exact foldl_invariant (fun _ _ hi h => collide_inv hb h (afterSecond_inv.colliding _ hi))
    afterSecond_inv

end Pokyh.Cluster

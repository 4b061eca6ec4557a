import Pokyh.Cluster.Passes

/-!
# Cluster — References

Which parents a row finds in the database, and what the writes of the applier change about that.
A row `child` lacks a parent through a foreign key as long as no row offers the values it refers
to (`Unoffered`).  A write can only end that by offering them itself: in the row it stores
(`Supplies`), or, while a group is parked, in a throw-away value (`Parks`).  Deletions, and the
`NULL`s they leave in other rows, offer nothing new.

* `attempt_unoffered`, `resolveDuplicate_unoffered`, `applyGroup_unoffered`: the three ways a pass
  writes.
-/

namespace Pokyh.Cluster
open Pokyh.Lib

variable {S : Schema} {node : Node} {db db' : Database} {item : WorkItem} {fk : ForeignKey}
  {child : RowId × Row}

/-! ### Values of rewritten rows -/

namespace Row

variable {row row' : Row} {column : String}

theorem value_map {f : String × Value → String × Value} (hf : ∀ e, (f e).1 = e.1) (row : Row)
    (column : String) :
    value (row.map f) column = (row.find? fun e => e.1 = column).map fun e => (f e).2 := by
  unfold value
  rw [List.find?_map, Option.map_map]
  have : (fun e : String × Value => decide (e.1 = column)) ∘ f = fun e => decide (e.1 = column) := by
    funext e
    simp [hf]
  rw [this]
  rfl

/-- A column set to a value has it, if the row has the column, and the others are as they were. -/
theorem value_set (row : Row) (column column' : String) (v : Value) :
    (row.set column v).value column' =
      if column' = column then (row.value column').map fun _ => v else row.value column' := by
  have hf : ∀ e : String × Value, (if e.1 = column then (column, v) else e).1 = e.1 := by
    intro e
    split
    · next he => exact he.symm
    · rfl
  have hval : row.value column' = (row.find? fun e => decide (e.1 = column')).map Prod.snd := rfl
  unfold set
  rw [value_map hf, hval]
  cases he : row.find? fun e => decide (e.1 = column') with
  | none => simp
  | some e =>
      have hname : e.1 = column' := by simpa using List.find?_some he
      rw [Option.map_some, hname]
      split <;> rfl

theorem value_overwrite (table : TableInfo) (old new : Row) (column : String) :
    (overwrite table old new).value column =
      if column ∈ table.pk then (new.value column).map fun x => (old.value column).getD x
      else new.value column := by
  have hf : ∀ e : String × Value,
      (if e.1 ∈ table.pk then (e.1, (old.value e.1).getD e.2) else e).1 = e.1 := by
    intro e
    split <;> rfl
  have hval : new.value column = (new.find? fun e => decide (e.1 = column)).map Prod.snd := rfl
  unfold overwrite
  rw [value_map hf, hval]
  cases he : new.find? fun e => decide (e.1 = column) with
  | none => simp
  | some e =>
      have hname : e.1 = column := by simpa using List.find?_some he
      rw [Option.map_some, Option.map_some, hname]
      split <;> rfl

/-- Values read from a row whose columns are those of another, `NULL`, or special. -/
theorem values_of {P : Value → Prop} {columns : List String} {vs : List Value}
    (h : ∀ column v, row'.value column = some v → v ≠ .null → row.value column = some v ∨ P v)
    (hv : row'.values columns = some vs) : row.values columns = some vs ∨ ∃ v ∈ vs, P v := by
  induction columns generalizing vs with
  | nil => exact .inl hv
  | cons column columns ih =>
      unfold values at hv ⊢
      cases hc : row'.value column with
      | none => rw [hc] at hv; cases hv
      | some v =>
          cases hr : row'.values columns with
          | none => rw [hc, hr] at hv; cases hv
          | some rest =>
              rw [hc, hr] at hv
              dsimp only at hv
              split at hv
              · cases hv
              · next hnull =>
                cases hv
                rcases ih hr with hrest | ⟨w, hw, hp⟩
                · rcases h column v hc hnull with hcol | hp
                  · rw [hcol, hrest]
                    exact .inl (if_neg hnull)
                  · exact .inr ⟨v, List.mem_cons_self, hp⟩
                · exact .inr ⟨w, List.mem_cons_of_mem _ hw, hp⟩

/-- The columns of `row'` are those of `row`, or `NULL`. -/
def Dims (row row' : Row) : Prop :=
  ∀ column, row'.value column = row.value column ∨
    (row.value column).isSome ∧ row'.value column = some .null

theorem Dims.values {columns : List String} {vs : List Value} (h : Dims row row')
    (hv : row'.values columns = some vs) : row.values columns = some vs := by
  have hsome : ∀ column v, row'.value column = some v → v ≠ .null →
      row.value column = some v ∨ False := by
    intro column v hc hn
    rcases h column with he | ⟨-, he⟩
    · exact .inl (he ▸ hc)
    · rw [he] at hc
      exact absurd (Option.some.inj hc).symm hn
  rcases values_of (P := fun _ => False) hsome hv with h | ⟨_, _, h⟩
  · exact h
  · exact h.elim

theorem Dims.trans {row'' : Row} (h₁ : Dims row row') (h₂ : Dims row' row'') : Dims row row'' := by
  intro column
  rcases h₂ column with he | ⟨hs, he⟩
  · rw [he]
    exact h₁ column
  · refine .inr ⟨?_, he⟩
    rcases h₁ column with he' | ⟨hs', -⟩
    · rwa [← he']
    · exact hs'

theorem dims_set_null : Dims row (row.set column .null) := by
  intro column'
  rw [value_set]
  split
  · cases hv : row.value column' with
    | none => exact .inl rfl
    | some v => exact .inr ⟨rfl, rfl⟩
  · exact .inl rfl

theorem dims_unlink {gone : List (RowId × Row)} {id : RowId} : Dims row (unlink S gone id row) := by
  unfold unlink
  refine foldl_invariant (P := fun row' => Dims row row') ?_ (fun _ => .inl rfl)
  intro row' fk _ h
  split
  · exact foldl_invariant (f := fun (row : Row) column => row.set column .null)
      (P := fun row' => Dims row row') (fun _ _ _ h => h.trans dims_set_null) h
  · exact h

/-- An update of a row with key columns set to `NULL` offers what an update of the row would. -/
theorem dims_overwrite {table : TableInfo} {old old' new : Row}
    (h : ∀ column ∈ table.pk, old'.value column = old.value column ∨
      (old.value column).isSome ∧ old'.value column = some .null) :
    Dims (overwrite table old new) (overwrite table old' new) := by
  intro column
  rw [value_overwrite, value_overwrite]
  split
  · next hpk =>
    cases hn : new.value column with
    | none => exact .inl rfl
    | some x =>
        rcases h column hpk with he | ⟨-, he⟩
        · exact .inl (by rw [he])
        · exact .inr ⟨rfl, by rw [he]; rfl⟩
  · exact .inl rfl

end Row

/-! ### Parents -/

/-- No row is a parent of `child` through `fk`. -/
def Unoffered (fk : ForeignKey) (child : RowId × Row) (db : Database) : Prop :=
  ∀ id row, db.selectRow id = some row → fk.references child (id, row) = false

theorem unmet_iff : fk.unmet db.rows child = true ↔
    (child.1.table = fk.table ∧ (child.2.values fk.columns).isSome) ∧ Unoffered fk child db := by
  unfold ForeignKey.unmet Unoffered Database.selectRow
  simp only [Bool.and_eq_true, decide_eq_true_eq, Bool.not_eq_true', List.any_eq_false,
    Bool.not_eq_true, Prod.forall, Table.mem_toList]

/-- The row refers to a parent that is not in the database. -/
def Lacks (S : Schema) (db : Database) (item : WorkItem) : Prop :=
  ∃ row, item.row = some row ∧ ∃ fk ∈ S.foreignKeys, fk.unmet db.rows (item.id, row) = true

theorem references_iff {parent : RowId × Row} : fk.references child parent = true ↔
    child.1.table = fk.table ∧ parent.1.table = fk.parent ∧
      ∃ vs, child.2.values fk.columns = some vs ∧ parent.2.values fk.parentColumns = some vs := by
  unfold ForeignKey.references
  cases hc : child.2.values fk.columns with
  | none => simp
  | some vs => simp [and_assoc]

/-- What offers no more than a row that is no parent is none. -/
theorem references_false_of {id : RowId} {row row' : Row}
    (h : fk.references child (id, row) = false)
    (hv : ∀ vs, row'.values fk.parentColumns = some vs → row.values fk.parentColumns = some vs) :
    fk.references child (id, row') = false := by
  rw [Bool.eq_false_iff] at h ⊢
  intro h'
  obtain ⟨ht, hp, vs, hc, hr⟩ := references_iff.mp h'
  exact h (references_iff.mpr ⟨ht, hp, vs, hc, hv vs hr⟩)

/-! ### Writes that supply a parent -/

/-- Writing the item stores a parent of `child`: the received row, or the stored one with the
received values outside the key. -/
def Supplies (db : Database) (item : WorkItem) (fk : ForeignKey) (child : RowId × Row) : Prop :=
  ∃ row, item.row = some row ∧
    (fk.references child (item.id, row) = true ∨
      ∃ old, db.selectRow item.id = some old ∧
        fk.references child (item.id, overwrite item.table old row) = true)

theorem deleteRow_unoffered {id : RowId} (h : Unoffered fk child db) :
    Unoffered fk child (deleteRow S db id) := by
  intro id' row hrow
  obtain ⟨old, hold, rfl, -⟩ := deleteRow_selectRow_some hrow
  exact references_false_of (h id' old hold) fun vs hv => Row.dims_unlink.values hv

/-- The stored row of the item in `db` is the one in `before`, as far as its key goes, up to
references it has lost. -/
def SameKey (before db : Database) (item : WorkItem) : Prop :=
  ∀ old, db.selectRow item.id = some old → ∃ old₀, before.selectRow item.id = some old₀ ∧
    ∀ column ∈ item.table.pk, old.value column = old₀.value column ∨
      (old₀.value column).isSome ∧ old.value column = some .null

theorem SameKey.refl (db : Database) (item : WorkItem) : SameKey db db item :=
  fun old ho => ⟨old, ho, fun _ _ => .inl rfl⟩

theorem SameKey.delete {before : Database} {id : RowId} (h : SameKey before db item) :
    SameKey before (deleteRow S db id) item := by
  intro old ho
  obtain ⟨old₁, ho₁, rfl, -⟩ := deleteRow_selectRow_some ho
  obtain ⟨old₀, ho₀, hk⟩ := h old₁ ho₁
  refine ⟨old₀, ho₀, fun column hc => ?_⟩
  rcases Row.dims_unlink column with he | ⟨hs, he⟩
  · rw [he]
    exact hk column hc
  · refine .inr ⟨?_, he⟩
    rcases hk column hc with he' | ⟨hs', -⟩
    · rwa [← he']
    · exact hs'

/-- Writing a row offers what the item supplies, and nothing else that was not offered before. -/
theorem writeRow_unoffered {before : Database} {present : Bool} (h : Unoffered fk child db)
    (hs : ¬ Supplies before item fk child) (hold : SameKey before db item)
    (hw : writeRow S db item present = .ok db') : Unoffered fk child db' := by
  cases hd : item.deleted with
  | true =>
      rw [writeRow_deletion hd] at hw
      cases hw
      split
      · exact deleteRow_unoffered h
      · exact h
  | false =>
      intro id row hrow
      by_cases hne : id = item.id
      swap
      · rw [writeRow_selectRow_ne hd hw hne] at hrow
        exact h id row hrow
      subst hne
      obtain ⟨new, hnew⟩ := exists_row hd
      rw [Bool.eq_false_iff]
      intro href
      cases present with
      | false =>
          rw [writeRow_insert hnew] at hw
          have hsel : db'.selectRow item.id = some new := by
            rw [insertRow_selectRow hw, if_pos item.id_eq]
          rw [hsel] at hrow
          cases hrow
          exact hs ⟨_, hnew, .inl href⟩
      | true =>
          rw [writeRow_update hnew] at hw
          split at hw
          · cases hw
            rw [h _ row hrow] at href
            cases href
          · have hsel : db'.selectRow item.id = _ := updateRow_selectRow hw
            rw [if_pos item.id_eq, hrow] at hsel
            obtain ⟨old, ho, hrow'⟩ := Option.map_eq_some_iff.mp hsel.symm
            obtain ⟨old₀, ho₀, hdims⟩ := hold old ho
            refine hs ⟨new, hnew, .inr ⟨old₀, ho₀, ?_⟩⟩
            by_contra hno
            rw [Bool.not_eq_true] at hno
            rw [← hrow', references_false_of hno fun vs hv => (Row.dims_overwrite hdims).values hv]
              at href
            cases href

theorem attempt_unoffered {fault : Option ℕ} (h : Unoffered fk child db)
    (hs : ¬ Supplies db item fk child) :
    Unoffered fk child (attempt S fault db item).2 := by
  rcases attempt_cases S fault db item with ⟨hdb, -⟩ | ⟨-, -, db', hw, hdb⟩
  · rwa [hdb]
  · rw [hdb]
    have hrow : Unoffered fk child db' := writeRow_unoffered h hs (SameKey.refl db item) hw
    exact hrow

theorem resolveDuplicate_unoffered {before : Database} {fault : Option ℕ} {otherKey : List String}
    (h : Unoffered fk child db) (hs : ¬ Supplies before item fk child)
    (hold : SameKey before db item) :
    Unoffered fk child (resolveDuplicate node fault db item otherKey).2 := by
  have hdel : ∀ (b : Bool) (id : RowId), Unoffered fk child
      (if b = true then deleteRow node.schema db id else db) := by
    intro b id
    split
    · exact deleteRow_unoffered h
    · exact h
  unfold resolveDuplicate
  dsimp only
  split
  · exact h
  split
  · exact h
  split
  · exact hdel _ _
  · split
    · exact h
    · next db₃ hw =>
      have hrow : Unoffered fk child db₃ := by
        refine writeRow_unoffered ?_ hs (fun old ho => ?_) hw
        · exact fun id row hrow => hdel _ _ id row hrow
        · rw [Database.selectRow_writeVersion] at ho
          split at ho
          · exact hold.delete old ho
          · exact hold old ho
      exact hrow

/-! ### Groups -/

variable {draws : Draws} {group : List WorkItem}

/-- A throw-away value for a column of the item. -/
def IsParked (draws : Draws) (item : WorkItem) (v : Value) : Prop :=
  ∃ index column, parkingValue (draws item index) item.table column = some v

/-- A throw-away value of the item is one `child` refers to. -/
def Parks (draws : Draws) (item : WorkItem) (fk : ForeignKey) (child : RowId × Row) : Prop :=
  ∃ v vs, IsParked draws item v ∧ child.2.values fk.columns = some vs ∧ v ∈ vs

/-- `row` is `old` with throw-away values outside the key. -/
structure ParkedFrom (draws : Draws) (item : WorkItem) (old row : Row) : Prop where
  key : ∀ column ∈ item.table.pk, row.value column = old.value column
  values : ∀ columns vs, row.values columns = some vs →
    old.values columns = some vs ∨ ∃ v ∈ vs, IsParked draws item v

theorem ParkedFrom.trans {old row row' : Row} (h₁ : ParkedFrom draws item old row)
    (h₂ : ParkedFrom draws item row row') : ParkedFrom draws item old row' where
  key c hc := (h₂.key c hc).trans (h₁.key c hc)
  values cs vs hv := (h₂.values cs vs hv).elim (h₁.values cs vs) .inr

theorem parkingColumn_not_key {table : TableInfo} {index : UniqueIndex} {column : String}
    (h : parkingColumn table index = some column) : column ∉ table.pk := by
  have := List.find?_some h
  simp only [Bool.and_eq_true, Bool.not_eq_true', decide_eq_false_iff_not] at this
  exact this.1.1

theorem updateColumn_rows {column : String} {v : Value} (hc : column ∉ item.table.pk)
    (hp : IsParked draws item v) (h : updateColumn S db item column v = .ok db') {id : RowId}
    {row' : Row} (hr : db'.selectRow id = some row') :
    ∃ row, db.selectRow id = some row ∧
      (row' = row ∨ id = item.id ∧ ParkedFrom draws item row row') := by
  unfold updateColumn at h
  split at h
  · cases h
    exact ⟨row', hr, .inl rfl⟩
  next row hrow =>
  rw [updateRow_selectRow h] at hr
  split at hr
  swap
  · exact ⟨row', hr, .inl rfl⟩
  next he =>
  rw [he, show db.selectRow ⟨item.table.name, item.key⟩ = some row from hrow] at hr
  obtain rfl := Option.some.inj hr
  have hne : ∀ c ∈ item.table.pk, c ≠ column := fun c hpk h => hc (h ▸ hpk)
  refine ⟨row, by rw [he]; exact hrow, .inr ⟨he, fun c hpk => ?_, fun cs vs hv => ?_⟩⟩
  · rw [Row.value_overwrite, if_pos hpk, Row.value_set, if_neg (hne c hpk)]
    cases row.value c <;> rfl
  · refine Row.values_of (fun c w hw _ => ?_) hv
    rw [Row.value_overwrite, Row.value_set] at hw
    split at hw
    · next hpk =>
      rw [if_neg (hne c hpk)] at hw
      cases hval : row.value c with
      | none => rw [hval] at hw; cases hw
      | some x => rw [hval] at hw; exact .inl hw
    · split at hw
      · cases hval : row.value c with
        | none => rw [hval] at hw; cases hw
        | some x =>
            rw [hval] at hw
            cases hw
            exact .inr hp
      · exact .inl hw

theorem parkMember_rows {indexes : List UniqueIndex} {done : Bool}
    (h : parkMember S draws db item indexes = .ok (done, db')) {id : RowId} {row' : Row}
    (hr : db'.selectRow id = some row') :
    ∃ row, db.selectRow id = some row ∧
      (row' = row ∨ id = item.id ∧ ParkedFrom draws item row row') := by
  induction indexes generalizing db with
  | nil => cases h; exact ⟨row', hr, .inl rfl⟩
  | cons index indexes ih =>
      unfold parkMember at h
      split at h
      · cases h; exact ⟨row', hr, .inl rfl⟩
      next column hcol =>
      split at h
      · cases h; exact ⟨row', hr, .inl rfl⟩
      next v hv =>
      split at h
      · cases h
      next db₁ hu =>
      obtain ⟨row₁, hr₁, h₁⟩ := ih h
      obtain ⟨row, hrow, h₀⟩ :=
        updateColumn_rows (parkingColumn_not_key hcol) ⟨index, column, hv⟩ hu hr₁
      refine ⟨row, hrow, ?_⟩
      rcases h₁ with rfl | ⟨hid, h₁⟩
      · exact h₀
      · rcases h₀ with rfl | ⟨-, h₀⟩
        · exact .inr ⟨hid, h₁⟩
        · exact .inr ⟨hid, h₀.trans h₁⟩

/-- The rows while a group of different rows is parked. -/
theorem parkGroup_rows {before : Database} {done : Bool} (hnd : (group.map WorkItem.id).Nodup)
    (h : parkGroup S draws before db group = .ok (done, db')) {id : RowId} {row' : Row}
    (hr : db'.selectRow id = some row') :
    ∃ row, db.selectRow id = some row ∧
      (row' = row ∨ ∃ m ∈ group, m.id = id ∧ ParkedFrom draws m row row') := by
  induction group generalizing db with
  | nil => cases h; exact ⟨row', hr, .inl rfl⟩
  | cons item group ih =>
      rw [List.map_cons, List.nodup_cons] at hnd
      unfold parkGroup at h
      split at h
      · obtain ⟨row, hrow, hcase⟩ := ih hnd.2 h
        refine ⟨row, hrow, hcase.imp_right ?_⟩
        rintro ⟨m, hm, hp⟩
        exact ⟨m, List.mem_cons_of_mem _ hm, hp⟩
      · split at h
        · cases h
        · next db₁ hpark =>
          cases h
          obtain ⟨row, hrow, hcase⟩ := parkMember_rows hpark hr
          exact ⟨row, hrow, hcase.imp_right fun hp => ⟨item, List.mem_cons_self, hp.1.symm, hp.2⟩⟩
        · next db₁ hpark =>
          obtain ⟨row₁, hr₁, h₁⟩ := ih hnd.2 h
          obtain ⟨row, hrow, h₀⟩ := parkMember_rows hpark hr₁
          refine ⟨row, hrow, ?_⟩
          rcases h₁ with rfl | ⟨m, hm, hid, h₁⟩
          · exact h₀.imp_right fun hp => ⟨item, List.mem_cons_self, hp.1.symm, hp.2⟩
          · rcases h₀ with rfl | ⟨hid', -⟩
            · exact .inr ⟨m, List.mem_cons_of_mem _ hm, hid, h₁⟩
            · exact absurd (List.mem_map.mpr ⟨m, hm, hid.trans hid'⟩) hnd.1

/-- The rows after the members of a group of different rows have their final values. -/
theorem writeGroup_rows {before : Database} (hnd : (group.map WorkItem.id).Nodup)
    (hk : ∀ m ∈ group, m.deleted = false) (h : writeGroup S before db group = .ok db') {id : RowId}
    {row' : Row} (hr : db'.selectRow id = some row') :
    db.selectRow id = some row' ∨ ∃ m ∈ group, m.id = id ∧ ∃ new, m.row = some new ∧
      (row' = new ∨ ∃ old, db.selectRow id = some old ∧ row' = overwrite m.table old new) := by
  induction group generalizing db with
  | nil => cases h; exact .inl hr
  | cons item group ih =>
      rw [List.map_cons, List.nodup_cons] at hnd
      have hd := hk item List.mem_cons_self
      unfold writeGroup at h
      split at h
      · cases h
      next db₁ hw =>
      have hcase := ih hnd.2 (fun m hm => hk m (List.mem_cons_of_mem _ hm)) h
      simp only [selectRow_writeItemVersion] at hcase
      rcases hcase with h₁ | ⟨m, hm, hid, new, hnew, h₁⟩
      · by_cases he : id = item.id
        · subst he
          obtain ⟨new, hnew⟩ := exists_row hd
          cases hb : (before.selectRow item.id).isSome with
          | false =>
              rw [hb, writeRow_insert hnew] at hw
              rw [insertRow_selectRow hw, if_pos item.id_eq] at h₁
              exact .inr ⟨item, List.mem_cons_self, rfl, new, hnew, .inl (Option.some.inj h₁).symm⟩
          | true =>
              rw [hb, writeRow_update hnew] at hw
              split at hw
              · cases hw
                exact .inl h₁
              · rw [updateRow_selectRow hw, if_pos item.id_eq, Option.map_eq_some_iff] at h₁
                obtain ⟨old, ho, hrow⟩ := h₁
                exact .inr ⟨item, List.mem_cons_self, rfl, new, hnew, .inr ⟨old, ho, hrow.symm⟩⟩
        · rw [writeRow_selectRow_ne hd hw he] at h₁
          exact .inl h₁
      · refine .inr ⟨m, List.mem_cons_of_mem _ hm, hid, new, hnew, ?_⟩
        have hne : id ≠ item.id := fun he =>
          hnd.1 (List.mem_map.mpr ⟨m, hm, hid.trans he⟩)
        rwa [writeRow_selectRow_ne hd hw hne] at h₁

theorem overwrite_congr {table : TableInfo} {old old' new : Row}
    (h : ∀ column ∈ table.pk, old'.value column = old.value column) :
    overwrite table old' new = overwrite table old new := by
  unfold overwrite
  refine List.map_congr_left fun e _ => ?_
  split
  · next hpk => rw [h _ hpk]
  · rfl

theorem parked_not_parent {id : RowId} {old row : Row} (h : fk.references child (id, old) = false)
    (hp : ¬ Parks draws item fk child) (hpark : ParkedFrom draws item old row) :
    fk.references child (id, row) = false := by
  rw [Bool.eq_false_iff] at h ⊢
  intro h'
  obtain ⟨ht, hpt, vs, hc, hr⟩ := references_iff.mp h'
  rcases hpark.values _ _ hr with hv | ⟨v, hv, hpv⟩
  · exact h (references_iff.mpr ⟨ht, hpt, vs, hc, hv⟩)
  · exact hp ⟨v, vs, hpv, hc, hv⟩

theorem applyGroup_unoffered {fault : Option ℕ} (hnd : (group.map WorkItem.id).Nodup)
    (hk : ∀ m ∈ group, m.deleted = false) (h : Unoffered fk child db)
    (hs : ∀ m ∈ group, ¬ Supplies db m fk child) (hp : ∀ m ∈ group, ¬ Parks draws m fk child) :
    Unoffered fk child (applyGroup S fault draws db group).2 := by
  have hparked : ∀ {done db₁}, parkGroup S draws db db group = .ok (done, db₁) →
      Unoffered fk child db₁ := by
    intro done db₁ hpark id row' hr
    obtain ⟨row, hrow, rfl | ⟨m, hm, -, hfrom⟩⟩ := parkGroup_rows hnd hpark hr
    · exact h id _ hrow
    · exact parked_not_parent (h id row hrow) (hp m hm) hfrom
  unfold applyGroup
  split
  · exact h
  split
  · exact h
  split
  · exact h
  · next hpark => exact hparked hpark
  · next db₁ hpark =>
    split
    · exact h
    · next db₂ hw =>
      intro id row' hr
      rcases writeGroup_rows hnd hk hw hr with hr₁ | ⟨m, hm, rfl, new, hnew, rfl | ⟨old, ho, rfl⟩⟩
      · exact hparked hpark id row' hr₁
      · rw [Bool.eq_false_iff]
        exact fun href => hs m hm ⟨_, hnew, .inl href⟩
      · obtain ⟨old₀, ho₀, hcase⟩ := parkGroup_rows hnd hpark ho
        have hkey : ∀ column ∈ m.table.pk, old.value column = old₀.value column := by
          rcases hcase with rfl | ⟨m', hm', hid, hfrom⟩
          · exact fun _ _ => rfl
          · obtain rfl : m' = m := List.inj_on_of_nodup_map hnd hm' hm hid
            exact hfrom.key
        rw [Bool.eq_false_iff, overwrite_congr hkey]
        exact fun href => hs m hm ⟨new, hnew, .inr ⟨old₀, ho₀, href⟩⟩

/-- A group that is not applied leaves its members parked, or as they were. -/
theorem applyGroup_sameKey {fault : Option ℕ} (hb : ∀ m ∈ group, Built node m)
    (hi : Built node item) (hnd : (group.map WorkItem.id).Nodup)
    (h : applyGroup S fault draws db group = (false, db')) : SameKey db db' item := by
  unfold applyGroup at h
  split at h
  · cases h; exact SameKey.refl _ _
  split at h
  · cases h; exact SameKey.refl _ _
  split at h
  · cases h; exact SameKey.refl _ _
  · next db₁ hpark =>
    cases h
    intro old ho
    obtain ⟨row, hrow, rfl | ⟨m, hm, hid, hfrom⟩⟩ := parkGroup_rows hnd hpark ho
    · exact ⟨_, hrow, fun _ _ => .inl rfl⟩
    · have htab : m.table = item.table := Built.table_eq (hb m hm) hi (RowId.mk.inj hid).1
      exact ⟨row, hrow, fun column hc => .inl (hfrom.key column (htab ▸ hc))⟩
  · split at h
    · cases h; exact SameKey.refl _ _
    · cases h

theorem ids_nodup (hb : ∀ m ∈ group, Built node m) (h : (group.map WorkItem.itemKey).Nodup) :
    (group.map WorkItem.id).Nodup := by
  rw [List.Nodup, List.pairwise_map] at h ⊢
  refine h.imp_of_mem fun {a b} ha hb' hne hid => hne ?_
  obtain ⟨hname, hkey⟩ := RowId.mk.inj hid
  unfold WorkItem.itemKey
  rw [hname, (hb a ha).hash, (hb b hb').hash, hkey]

end Pokyh.Cluster

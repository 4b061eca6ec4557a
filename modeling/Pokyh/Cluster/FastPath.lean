import Pokyh.Cluster.Attempts

/-!
# Cluster — FastPath

`applyPackage` applies a package in one transaction; `careful` applies the same items with
`attempt`, one after the other.  The two agree on the rows, the version registry and the results,
except for one kind of package: `applyPackage` reads which rows exist before it writes anything,
so a row that one of the package's own deletions takes with it is still updated afterwards, which
changes zero rows (`LosesRow`).

* `packageStep_eq_attempt`: one item, as long as both write the row the same way.
* `agreesUntil`: up to the first lost row the two are in the same state.
* `applyPackage_agrees_iff`: **the fast path agrees with the careful path exactly when the package
  loses no row.**
-/

namespace Pokyh.Cluster
open Pokyh.Lib

/-! ### The careful path, and agreement with it -/

def carefulStep (S : Schema) (acc : Database × List (WorkItem × Outcome)) (item : WorkItem) :
    Database × List (WorkItem × Outcome) :=
  let (outcome, db) := attempt S none acc.1 item
  (db, acc.2 ++ [(item, outcome)])

/-- Every item in turn, each in a transaction of its own. -/
def careful (S : Schema) (db : Database) (items : List WorkItem) :
    Database × List (WorkItem × Outcome) :=
  items.foldl (carefulStep S) (db, [])

/-- The answer an outcome stands for, when it is one already. -/
def Outcome.result : Outcome → Option ItemResult
  | .applied => some .a
  | .stale => some .s
  | .reject => some .r
  | .conflict _ _ | .defer _ => none

/-- Same state, and same answers. -/
structure SameSoFar (fast : Database × List (WorkItem × ItemResult))
    (slow : Database × List (WorkItem × Outcome)) : Prop where
  db : fast.1 = slow.1
  results : fast.2.map (fun e => (e.1, some e.2)) = slow.2.map fun e => (e.1, e.2.result)

/-- The fast path's outcome `r` is what the careful path leaves, and every row it answers with `a`
is there: with the received values, unless a later item of the package wrote it again. -/
structure Agrees (S : Schema) (db : Database) (items : List WorkItem)
    (r : Database × List (WorkItem × ItemResult)) : Prop where
  rows : ∀ id, r.1.selectRow id = (careful S db items).1.selectRow id
  registry : ∀ table hash, r.1.record table hash = (careful S db items).1.record table hash
  results : r.2.map (fun e => (e.1, some e.2)) =
    (careful S db items).2.map fun e => (e.1, e.2.result)
  present : ∀ pre item post, r.2 = pre ++ (item, .a) :: post → item.deleted = false →
    ∃ row, r.1.selectRow item.id = some row ∧
      ((∀ later ∈ post, later.1.id = item.id → later.2 ≠ .a) → item.Carries row)

/-! ### Packages that lose a row -/

/-- The deletions among the items that are newer than what is stored, in their order. -/
def afterDeletions (S : Schema) (db : Database) (items : List WorkItem) : Database :=
  items.foldl (fun db item =>
    if item.deleted && isNewer item.rowVersion (db.readVersion item.table.name item.hash) then
      writeItemVersion (deleteRow S db item.id) item
    else db) db

/-- `item`, with `pre` before it, is a newer version of a row that was there before the package,
and that the package's deletions remove. -/
structure Lost (S : Schema) (db : Database) (items pre : List WorkItem) (item : WorkItem) : Prop where
  kept : item.deleted = false
  existed : (db.selectRow item.id).isSome
  gone : (afterDeletions S db items).selectRow item.id = none
  newer : isNewer item.rowVersion (db.readVersion item.table.name item.hash) = true
  newest : ∀ earlier ∈ pre, earlier.itemKey = item.itemKey → earlier.rowVersion < item.rowVersion

def LosesRow (S : Schema) (db : Database) (items : List WorkItem) : Prop :=
  ∃ pre item post, items = pre ++ item :: post ∧ Lost S db items pre item

/-! ### The order of a package -/

instance : Std.Total fun a b : WorkItem => comesBefore a b = true where
  total a b := by
    unfold comesBefore
    cases a.deleted <;> cases b.deleted <;> simp <;> omega

instance : IsTrans WorkItem fun a b => comesBefore a b = true where
  trans a b c := by
    unfold comesBefore
    cases a.deleted <;> cases b.deleted <;> cases c.deleted <;> simp <;> omega

/-- Deletions come first. -/
theorem orderItems_split (items : List WorkItem) :
    ∃ dels ups, orderItems items = dels ++ ups ∧ (∀ item ∈ dels, item.deleted = true) ∧
      ∀ item ∈ ups, item.deleted = false := by
  have hp : (orderItems items).Pairwise fun a b => comesBefore a b = true :=
    List.pairwise_insertionSort _ items
  generalize orderItems items = l at hp
  induction hp with
  | nil => exact ⟨[], [], rfl, by simp, by simp⟩
  | @cons a l ha _ ih =>
      obtain ⟨dels, ups, rfl, hd, hu⟩ := ih
      cases hdel : a.deleted with
      | true => exact ⟨a :: dels, ups, rfl, by simpa [hdel] using hd, hu⟩
      | false =>
          refine ⟨[], a :: (dels ++ ups), rfl, by simp, ?_⟩
          rintro item (_ | ⟨_, hi⟩)
          · exact hdel
          · have hb := ha item hi
            unfold comesBefore at hb
            cases hid : item.deleted <;> simp_all

/-! ### One item -/

variable {S : Schema} {before db db' : Database} {item : WorkItem}
  {fast fast' : Database × List (WorkItem × ItemResult)} {slow : Database × List (WorkItem × Outcome)}

theorem packageStep_cases (h : packageStep S before fast item = some fast') :
    (isNewer item.rowVersion (fast.1.readVersion item.table.name item.hash) = false ∧
      fast' = (fast.1, fast.2 ++ [(item, .s)])) ∨
    (isNewer item.rowVersion (fast.1.readVersion item.table.name item.hash) = true ∧
      findCollision fast.1 item = none ∧
      ∃ db', writeRow S fast.1 item (before.selectRow item.id).isSome = .ok db' ∧
        fast' = (writeItemVersion db' item, fast.2 ++ [(item, .a)])) := by
  obtain ⟨db, results⟩ := fast
  simp only [packageStep] at h
  split at h
  · next hn => exact .inl ⟨by simpa using hn, by cases h; rfl⟩
  · next hn =>
    split at h
    · cases h
    · next hc =>
      split at h
      · cases h
      · next db' hw =>
        exact .inr ⟨by simpa using hn, by simpa using hc, db', hw, by cases h; rfl⟩

theorem packageStep_grows (h : packageStep S before fast item = some fast') :
    Grows fast.1 fast'.1 := by
  rcases packageStep_cases h with ⟨-, rfl⟩ | ⟨hn, -, db', hw, rfl⟩
  · exact Grows.refl _
  · exact Grows.write hn hw

/-- An item that the package answers is covered. -/
theorem packageStep_covers (h : packageStep S before fast item = some fast') :
    Covered fast'.1 item := by
  rcases packageStep_cases h with ⟨hn, rfl⟩ | ⟨-, -, db', -, rfl⟩
  · exact covered_of_not_newer hn
  · exact covered_writeItemVersion

theorem attempt_of_stale
    (hn : isNewer item.rowVersion (db.readVersion item.table.name item.hash) = false) :
    attempt S none db item = (.stale, db) := by
  simp [attempt, attemptWithin, hn]

theorem attempt_of_newer
    (hn : isNewer item.rowVersion (db.readVersion item.table.name item.hash) = true)
    (hc : findCollision db item = none) :
    attempt S none db item =
      match writeRow S db item (db.selectRow item.id).isSome with
      | .error code => (classifyWriteError code, db)
      | .ok db' => (.applied, writeItemVersion db' item) := by
  cases hw : writeRow S db item (db.selectRow item.id).isSome <;>
    simp [attempt, attemptWithin, hn, hc, hw]

/-- The package and the careful path write the item the same way. -/
def Sees (S : Schema) (before db : Database) (item : WorkItem) : Prop :=
  isNewer item.rowVersion (db.readVersion item.table.name item.hash) = true →
    writeRow S db item (before.selectRow item.id).isSome =
      writeRow S db item (db.selectRow item.id).isSome

theorem packageStep_eq_attempt (hs : SameSoFar fast slow) (hsees : Sees S before fast.1 item)
    (h : packageStep S before fast item = some fast') :
    SameSoFar fast' (carefulStep S slow item) := by
  obtain ⟨hdb, hres⟩ := hs
  rcases packageStep_cases h with ⟨hn, rfl⟩ | ⟨hn, hc, db', hw, rfl⟩
  · rw [hdb] at hn
    constructor <;> simp [carefulStep, attempt_of_stale hn, hdb, hres, Outcome.result]
  · rw [hsees hn] at hw
    rw [hdb] at hn hc hw
    constructor <;> simp [carefulStep, attempt_of_newer hn hc, hw, hres, Outcome.result]

/-! ### The deletions -/

theorem sees_deletion (hd : item.deleted = true)
    (habs : before.selectRow item.id = none → db.selectRow item.id = none) :
    Sees S before db item := by
  intro _
  rw [writeRow_deletion_eq hd, writeRow_deletion hd]
  cases hs : before.selectRow item.id with
  | none => rw [deleteRow_of_absent (habs hs)]; rfl
  | some row => rfl

/-- A deletion on the careful path. -/
theorem carefulStep_deletion (hd : item.deleted = true) :
    (carefulStep S slow item).1 =
      if isNewer item.rowVersion (slow.1.readVersion item.table.name item.hash) then
        writeItemVersion (deleteRow S slow.1 item.id) item
      else slow.1 := by
  have hc : findCollision slow.1 item = none := by
    rw [findCollision, WorkItem.row_eq_none_iff.mpr hd]
  cases hn : isNewer item.rowVersion (slow.1.readVersion item.table.name item.hash) with
  | false => simp [carefulStep, attempt_of_stale hn]
  | true => simp [carefulStep, attempt_of_newer hn hc, writeRow_deletion_eq hd]

theorem foldl_carefulStep_deletions {dels : List WorkItem} (hd : ∀ item ∈ dels, item.deleted = true) :
    (dels.foldl (carefulStep S) slow).1 = afterDeletions S slow.1 dels := by
  induction dels generalizing slow with
  | nil => rfl
  | cons item dels ih =>
      have hi := hd item List.mem_cons_self
      rw [List.foldl_cons, ih fun i h => hd i (List.mem_cons_of_mem _ h), carefulStep_deletion hi]
      simp [afterDeletions, hi]

theorem afterDeletions_append {dels ups : List WorkItem} (hu : ∀ item ∈ ups, item.deleted = false) :
    afterDeletions S db (dels ++ ups) = afterDeletions S db dels := by
  unfold afterDeletions
  rw [List.foldl_append]
  exact foldl_invariant (P := fun db' => db' = _)
    (fun _ i hi h => by rw [h]; simp [hu i hi]) rfl

/-- Deletions bring no row back. -/
theorem afterDeletions_absent {id : RowId} (h : db.selectRow id = none) (items : List WorkItem) :
    (afterDeletions S db items).selectRow id = none := by
  have hinv := @foldl_invariant Database WorkItem
    (fun db item => if item.deleted && isNewer item.rowVersion
        (db.readVersion item.table.name item.hash) then writeItemVersion (deleteRow S db item.id) item
      else db) (fun db => db.selectRow id = none) items
  refine hinv ?_ h
  intro db item _ h
  split
  · exact deleteRow_selectRow_none h
  · exact h

/-! ### The rows after the deletions -/

theorem carefulStep_keeps {id : RowId} (hd : item.deleted = false)
    (hs : (slow.1.selectRow id).isSome) : ((carefulStep S slow item).1.selectRow id).isSome := by
  have hdb : (carefulStep S slow item).1 = (attempt S none slow.1 item).2 := rfl
  rw [hdb]
  rcases attempt_cases S none slow.1 item with ⟨h, -⟩ | ⟨-, -, db', hw, h⟩
  · rw [h]
    exact hs
  · rw [h]
    exact writeRow_keeps hd hw hs

theorem foldl_carefulStep_keeps {id : RowId} {ups : List WorkItem}
    (hu : ∀ item ∈ ups, item.deleted = false) (hs : (slow.1.selectRow id).isSome) :
    ((ups.foldl (carefulStep S) slow).1.selectRow id).isSome :=
  foldl_invariant (f := carefulStep S) (P := fun slow => (slow.1.selectRow id).isSome)
    (fun _ i hi h => carefulStep_keeps (hu i hi) h) hs

/-- The fast path never brings back a row it saw and that is gone. -/
theorem packageStep_absent {id : RowId} (hex : (before.selectRow id).isSome)
    (habs : fast.1.selectRow id = none) (h : packageStep S before fast item = some fast') :
    fast'.1.selectRow id = none := by
  rcases packageStep_cases h with ⟨-, rfl⟩ | ⟨-, -, db', hw, rfl⟩
  · exact habs
  · rw [selectRow_writeItemVersion]
    cases hd : item.deleted with
    | true =>
        rw [writeRow_deletion hd] at hw
        cases hw
        split
        · exact deleteRow_selectRow_none habs
        · exact habs
    | false =>
        by_cases he : id = item.id
        · subst he
          obtain ⟨row, hr⟩ := exists_row hd
          rw [hex, writeRow_update hr] at hw
          split at hw
          · cases hw; exact habs
          · rw [updateRow_of_absent habs] at hw
            cases hw
            exact habs
        · rw [writeRow_selectRow_ne hd hw he]
          exact habs

/-! ### The versions along a package -/

/-- What is stored after some items was stored before, or is the version of one of them. -/
theorem run_readVersion {items : List WorkItem} {t h : String} {w : RowVersion}
    (hr : run (packageStep S before) fast items = some fast') (hw : fast'.1.readVersion t h = some w) :
    fast.1.readVersion t h = some w ∨
      ∃ item ∈ items, item.itemKey = (t, h) ∧ item.rowVersion = w := by
  revert w
  refine run_splits (P := fun pre acc => ∀ {w}, acc.1.readVersion t h = some w →
    fast.1.readVersion t h = some w ∨ ∃ item ∈ pre, item.itemKey = (t, h) ∧ item.rowVersion = w)
    (fun h => .inl h) ?_ hr
  intro pre item post acc acc' _ _ ih hstep w hw
  have weaken : (fast.1.readVersion t h = some w ∨
      ∃ item ∈ pre, item.itemKey = (t, h) ∧ item.rowVersion = w) →
      fast.1.readVersion t h = some w ∨
        ∃ i ∈ pre ++ [item], i.itemKey = (t, h) ∧ i.rowVersion = w := by
    rintro (h | ⟨i, hi, h⟩)
    · exact .inl h
    · exact .inr ⟨i, List.mem_append_left _ hi, h⟩
  rcases packageStep_cases hstep with ⟨-, rfl⟩ | ⟨-, -, db', hwr, rfl⟩
  · exact weaken (ih hw)
  · rw [readVersion_writeItemVersion] at hw
    split at hw
    · next he => exact .inr ⟨item, by simp, he.symm, by simpa using hw⟩
    · rw [Database.readVersion_congr (writeRow_registry hwr).1] at hw
      exact weaken (ih hw)

theorem run_packageStep_grows {items : List WorkItem}
    (hr : run (packageStep S before) fast items = some fast') : Grows fast.1 fast'.1 :=
  run_mono (R := fun a b => Grows a.1 b.1) (fun _ => Grows.refl _) Grows.trans
    (fun _ _ _ h => packageStep_grows h) hr

theorem run_packageStep_covers {items : List WorkItem}
    (hr : run (packageStep S before) fast items = some fast') :
    ∀ item ∈ items, Covered fast'.1 item := by
  refine run_splits (P := fun pre acc => ∀ item ∈ pre, Covered acc.1 item) (by simp) ?_ hr
  intro pre a post acc acc' _ _ ih hstep item hi
  rcases List.mem_append.mp hi with hi | hi
  · exact (ih item hi).grows (packageStep_grows hstep)
  · obtain rfl := List.mem_singleton.mp hi
    exact packageStep_covers hstep

/-- An item is newer than what is stored when its turn comes if and only if it is newer than what
was stored before the package, and than every earlier item of its row. -/
theorem newer_iff {pre : List WorkItem} (hr : run (packageStep S before) fast pre = some fast') :
    isNewer item.rowVersion (fast'.1.readVersion item.table.name item.hash) = true ↔
      isNewer item.rowVersion (fast.1.readVersion item.table.name item.hash) = true ∧
        ∀ earlier ∈ pre, earlier.itemKey = item.itemKey → earlier.rowVersion < item.rowVersion := by
  rw [isNewer_iff, isNewer_iff]
  constructor
  · intro h
    refine ⟨fun c hc => ?_, fun earlier he hk => ?_⟩
    · obtain ⟨w, hw, hcw⟩ := run_packageStep_grows hr _ _ c hc
      exact hcw.trans_lt (h w hw)
    · obtain ⟨w, hw, hcw⟩ := run_packageStep_covers hr earlier he
      obtain ⟨ht, hh⟩ := Prod.mk.inj hk
      rw [ht, hh] at hw
      exact hcw.trans_lt (h w hw)
  · rintro ⟨h₁, h₂⟩ c hc
    rcases run_readVersion hr hc with h | ⟨i, hi, hk, rfl⟩
    · exact h₁ c h
    · exact h₂ i hi hk

/-! ### The two paths together -/

variable {items dels ups : List WorkItem} {r : Database × List (WorkItem × ItemResult)}

/-- What comes before an item of an ordered package. -/
theorem before_item {pre post : List WorkItem} (hi : items = pre ++ item :: post)
    (hs : items = dels ++ ups) (hd : ∀ i ∈ dels, i.deleted = true)
    (hu : ∀ i ∈ ups, i.deleted = false) :
    (item.deleted = true → ∀ i ∈ pre, i.deleted = true) ∧
      (item.deleted = false → ∃ mid, pre = dels ++ mid ∧ (∀ i ∈ mid, i.deleted = false) ∧
        ∀ i ∈ post, i.deleted = false) := by
  rw [hs] at hi
  rcases List.append_eq_append_iff.mp hi with ⟨mid, rfl, hups⟩ | ⟨bs, rfl, hb⟩
  · have hmid : ∀ i ∈ mid ++ item :: post, i.deleted = false := by rwa [← hups]
    refine ⟨fun h => ?_, fun _ => ⟨mid, rfl, fun i h => hmid i (by simp [h]),
      fun i h => hmid i (by simp [h])⟩⟩
    rw [hmid item (by simp)] at h
    cases h
  · refine ⟨fun _ i h => hd i (List.mem_append_left _ h), fun h => ?_⟩
    cases bs with
    | nil =>
        obtain rfl : item :: post = ups := by simpa using hb
        exact ⟨[], by simp, by simp, fun i h => hu i (List.mem_cons_of_mem _ h)⟩
    | cons b bs =>
        obtain ⟨rfl, -⟩ := List.cons.inj hb
        rw [hd item (by simp)] at h
        cases h

/-- The careful path before an item that is not a deletion: the row the deletions took is gone or
was written again since. -/
theorem careful_before {mid : List WorkItem} (hd : ∀ i ∈ dels, i.deleted = true)
    (hm : ∀ i ∈ mid, i.deleted = false) {id : RowId}
    (hs : ((afterDeletions S db dels).selectRow id).isSome) :
    ((careful S db (dels ++ mid)).1.selectRow id).isSome := by
  unfold careful
  rw [List.foldl_append]
  refine foldl_carefulStep_keeps hm ?_
  rwa [foldl_carefulStep_deletions hd]

/-- Where no row is lost, the package writes an item the way the careful path does. -/
theorem sees_of_not_lost (hs : items = dels ++ ups) (hd : ∀ i ∈ dels, i.deleted = true)
    (hu : ∀ i ∈ ups, i.deleted = false) {pre post : List WorkItem} (hi : items = pre ++ item :: post)
    (hr : run (packageStep S db) (db, []) pre = some fast) (hsame : SameSoFar fast (careful S db pre))
    (hstep : packageStep S db fast item = some fast') (hl : ¬ Lost S db items pre item) :
    Sees S db fast.1 item := by
  obtain ⟨hdel, hup⟩ := before_item hi hs hd hu
  cases hid : item.deleted with
  | true =>
      refine sees_deletion hid fun habs => ?_
      rw [hsame.db]
      unfold careful
      rw [foldl_carefulStep_deletions (hdel hid)]
      exact afterDeletions_absent habs _
  | false =>
      intro hn
      obtain ⟨mid, rfl, hmid, -⟩ := hup hid
      rcases packageStep_cases hstep with ⟨hn', -⟩ | ⟨-, -, db', hw, -⟩
      · rw [hn] at hn'
        cases hn'
      obtain ⟨row, hrow⟩ := exists_row hid
      cases hb : db.selectRow item.id with
      | none =>
          -- The package inserted the row, so it was not there.
          rw [hb, Option.isSome_none, writeRow_insert hrow] at hw
          rw [show fast.1.selectRow item.id = none from (insertRow_ok hw).1]
      | some old =>
          -- Not lost, so the deletions left it.
          cases hc : fast.1.selectRow item.id with
          | some now => rfl
          | none =>
              obtain ⟨hnew, hnewest⟩ := (newer_iff hr).mp hn
              refine absurd ⟨hid, by simp [hb], ?_, hnew, hnewest⟩ hl
              rw [hs, afterDeletions_append hu]
              by_contra hne
              have hkept := careful_before hd hmid (Option.isSome_iff_ne_none.mpr hne)
              rw [← hsame.db, hc] at hkept
              cases hkept

/-- **Up to the first lost row, the fast path and the careful path are in the same state.** -/
theorem agreesUntil (hs : items = dels ++ ups) (hd : ∀ i ∈ dels, i.deleted = true)
    (hu : ∀ i ∈ ups, i.deleted = false) {pre post : List WorkItem} (hp : items = pre ++ post)
    (hr : run (packageStep S db) (db, []) pre = some fast)
    (hl : ∀ pre' item post', items = pre' ++ item :: post' → pre'.length < pre.length →
      ¬ Lost S db items pre' item) :
    SameSoFar fast (careful S db pre) := by
  refine run_splits (P := fun pre acc => SameSoFar acc (careful S db pre)) ⟨rfl, rfl⟩ ?_ hr
  intro pre₁ item post₁ acc acc' hpre h₁ ih hstep
  have hi : items = pre₁ ++ item :: (post₁ ++ post) := by simp [hp, hpre]
  have hnext : careful S db (pre₁ ++ [item]) = carefulStep S (careful S db pre₁) item := by
    simp [careful]
  rw [hnext]
  exact packageStep_eq_attempt ih
    (sees_of_not_lost hs hd hu hi h₁ ih hstep (hl _ item _ hi (by simp [hpre]))) hstep

theorem run_results (hr : run (packageStep S before) fast items = some fast') :
    fast'.2.map Prod.fst = fast.2.map Prod.fst ++ items := by
  refine run_splits (P := fun pre acc => acc.2.map Prod.fst = fast.2.map Prod.fst ++ pre)
    (by simp) ?_ hr
  intro pre item post acc acc' _ _ ih hstep
  rcases packageStep_cases hstep with ⟨-, rfl⟩ | ⟨-, -, db', -, rfl⟩ <;> simp [ih]

/-- In a package that loses no row, the rows answered with `a` are there, as received. -/
theorem present_of_not_losesRow (hs : items = dels ++ ups) (hd : ∀ i ∈ dels, i.deleted = true)
    (hu : ∀ i ∈ ups, i.deleted = false) (hr : run (packageStep S db) (db, []) items = some r)
    (hl : ¬ LosesRow S db items) :
    ∀ pre item post, r.2 = pre ++ (item, .a) :: post → item.deleted = false →
      ∃ row, r.1.selectRow item.id = some row ∧
        ((∀ later ∈ post, later.1.id = item.id → later.2 ≠ .a) → item.Carries row) := by
  refine run_splits (P := fun _ acc => ∀ pre item post, acc.2 = pre ++ (item, .a) :: post →
    item.deleted = false → ∃ row, acc.1.selectRow item.id = some row ∧
      ((∀ later ∈ post, later.1.id = item.id → later.2 ≠ .a) → item.Carries row)) ?_ ?_ hr
  · intro pre item post h
    simp at h
  intro done i rest acc acc' hdone hacc ih hstep pre item post hsplit hid
  have hsame : SameSoFar acc (careful S db done) :=
    agreesUntil hs hd hu hdone hacc fun p j q hj _ hlost => hl ⟨p, j, q, hj, hlost⟩
  have hsees : Sees S db acc.1 i := sees_of_not_lost hs hd hu hdone hacc hsame hstep
    fun hlost => hl ⟨done, i, rest, hdone, hlost⟩
  have hres := run_results hacc
  rcases List.eq_nil_or_concat post with rfl | ⟨post, last, rfl⟩
  · -- The item itself: it was written with its presence read correctly.
    rcases packageStep_cases hstep with ⟨-, rfl⟩ | ⟨hn, -, db', hw, rfl⟩
    · have := (List.append_inj' hsplit rfl).2
      simp at this
    · obtain ⟨rfl, -⟩ : i = item ∧ ItemResult.a = .a := by
        simpa using (List.append_inj' hsplit rfl).2
      rw [hsees hn] at hw
      obtain ⟨row, hrow, hcar⟩ := writeRow_carries hid hw
      exact ⟨row, hrow, fun _ => hcar⟩
  · -- An item handled before: a later write of the same row replaces it, no write removes it.
    rw [List.concat_eq_append] at hsplit ⊢
    rw [← List.cons_append, ← List.append_assoc] at hsplit
    rcases packageStep_cases hstep with ⟨-, rfl⟩ | ⟨-, -, db', hw, rfl⟩
    · obtain ⟨hacc₂, -⟩ := List.append_inj' hsplit rfl
      obtain ⟨row, hrow, hcar⟩ := ih pre item post hacc₂ hid
      exact ⟨row, hrow, fun hlater => hcar fun later hm => hlater later (by simp [hm])⟩
    · obtain ⟨hacc₂, hlast⟩ := List.append_inj' hsplit rfl
      obtain rfl : (i, ItemResult.a) = last := by simpa using hlast
      obtain ⟨row, hrow, hcar⟩ := ih pre item post hacc₂ hid
      have hmem : item ∈ done := by
        have : item ∈ acc.2.map Prod.fst := by simp [hacc₂]
        rw [hres] at this
        simpa using this
      have hi : i.deleted = false := by
        cases hi : i.deleted with
        | false => rfl
        | true =>
            rw [(before_item hdone hs hd hu).1 hi item hmem] at hid
            cases hid
      by_cases hne : item.id = i.id
      · obtain ⟨row', hrow'⟩ := Option.isSome_iff_exists.mp
          (writeRow_keeps hi hw (show (acc.1.selectRow item.id).isSome by simp [hrow]))
        exact ⟨row', hrow', fun hlater => absurd rfl (hlater (i, .a) (by simp) hne.symm)⟩
      · refine ⟨row, ?_, fun hlater => hcar fun later hm => hlater later (by simp [hm])⟩
        rw [selectRow_writeItemVersion, writeRow_selectRow_ne hi hw hne, hrow]

theorem exists_first_lost (h : LosesRow S db items) :
    ∃ pre item post, items = pre ++ item :: post ∧ Lost S db items pre item ∧
      ∀ pre' item' post', items = pre' ++ item' :: post' → pre'.length < pre.length →
        ¬ Lost S db items pre' item' := by
  classical
  have hex : ∃ n, ∃ pre item post, items = pre ++ item :: post ∧ Lost S db items pre item ∧
      pre.length = n := by
    obtain ⟨pre, item, post, hi, hl⟩ := h
    exact ⟨_, pre, item, post, hi, hl, rfl⟩
  obtain ⟨pre, item, post, hi, hl, hlen⟩ := Nat.find_spec hex
  refine ⟨pre, item, post, hi, hl, fun p i q hp hlt hlost => ?_⟩
  exact Nat.find_min hex (by rwa [← hlen]) ⟨p, i, q, hp, hlost, rfl⟩

theorem run_results_prefix (hr : run (packageStep S before) fast items = some fast') :
    fast.2 <+: fast'.2 := by
  refine run_mono (R := fun a b => a.2 <+: b.2) (fun _ => List.prefix_rfl)
    (fun h₁ h₂ => by exact h₁.trans h₂) (fun _ _ _ h => ?_) hr
  rcases packageStep_cases h with ⟨-, rfl⟩ | ⟨-, -, db', -, rfl⟩ <;> exact List.prefix_append _ _

theorem foldl_carefulStep_prefix (items : List WorkItem) :
    slow.2 <+: (items.foldl (carefulStep S) slow).2 :=
  foldl_invariant (f := carefulStep S) (P := fun acc => slow.2 <+: acc.2)
    (fun _ _ _ h => h.trans (List.prefix_append _ _)) List.prefix_rfl

/-- A package that loses a row leaves something else than the careful path. -/
theorem not_agrees_of_losesRow (hs : items = dels ++ ups) (hd : ∀ i ∈ dels, i.deleted = true)
    (hu : ∀ i ∈ ups, i.deleted = false) (hr : run (packageStep S db) (db, []) items = some r)
    (hl : LosesRow S db items) : ¬ Agrees S db items r := by
  intro hagree
  obtain ⟨pre, item, post, hi, hlost, hfirst⟩ := exists_first_lost hl
  obtain ⟨mid, hpre, hmid, hpost⟩ := (before_item hi hs hd hu).2 hlost.kept
  have hpre_le : dels.length ≤ pre.length := by simp [hpre]
  -- The state before the lost row, and before the rows that are not deletions.
  have hr' := hr
  rw [hi, run_append, Option.bind_eq_some_iff] at hr'
  obtain ⟨acc, hacc, hrest⟩ := hr'
  obtain ⟨acc', hstep, hpost_run⟩ := run_cons_eq_some.mp hrest
  have hacc' := hacc
  rw [hpre, run_append, Option.bind_eq_some_iff] at hacc'
  obtain ⟨accd, haccd, hmid_run⟩ := hacc'
  have hsame : SameSoFar acc (careful S db pre) := agreesUntil hs hd hu hi hacc hfirst
  have hsamed : SameSoFar accd (careful S db dels) :=
    agreesUntil hs hd hu hs haccd fun p i q hp hlt => hfirst p i q hp (by omega)
  -- The row is gone there, and the fast path never writes it again.
  have habsd : accd.1.selectRow item.id = none := by
    have hgone := hlost.gone
    rw [hs, afterDeletions_append hu] at hgone
    rw [hsamed.db]
    unfold careful
    rwa [foldl_carefulStep_deletions hd]
  have absent : ∀ {a b : Database × List (WorkItem × ItemResult)} {l : List WorkItem},
      a.1.selectRow item.id = none → run (packageStep S db) a l = some b →
        b.1.selectRow item.id = none := fun ha hab =>
    run_invariant (P := fun acc => acc.1.selectRow item.id = none)
      (fun _ _ _ h hstep => packageStep_absent hlost.existed h hstep) ha hab
  have habs : acc.1.selectRow item.id = none := absent habsd hmid_run
  have hgone : r.1.selectRow item.id = none :=
    absent (packageStep_absent hlost.existed habs hstep) hpost_run
  -- It is answered with `a`.
  have hnew := (newer_iff hacc).mpr ⟨hlost.newer, hlost.newest⟩
  have hres : acc'.2 = acc.2 ++ [(item, .a)] := by
    rcases packageStep_cases hstep with ⟨hn, -⟩ | ⟨-, -, db', -, rfl⟩
    · rw [hnew] at hn
      cases hn
    · rfl
  -- The careful path either writes it, or answers otherwise.
  have hcar : careful S db items =
      post.foldl (carefulStep S) (carefulStep S (careful S db pre) item) := by
    simp [hi, careful]
  have hcarres : (carefulStep S (careful S db pre) item).2 =
      (careful S db pre).2 ++ [(item, (attempt S none (careful S db pre).1 item).1)] := rfl
  rcases attempt_cases S none (careful S db pre).1 item with ⟨-, hna, -⟩ | ⟨-, -, db', hw, hdb'⟩
  · obtain ⟨rest, hfast⟩ := run_results_prefix hpost_run
    obtain ⟨rest', hslow⟩ : (carefulStep S (careful S db pre) item).2 <+:
        (post.foldl (carefulStep S) (carefulStep S (careful S db pre) item)).2 :=
      foldl_carefulStep_prefix post
    have hboth := hagree.results
    rw [hcar, ← hslow, ← hfast, hres, hcarres, List.map_append, List.map_append, List.map_append,
      List.map_append, hsame.results, List.append_assoc, List.append_assoc] at hboth
    have hhead := List.append_cancel_left hboth
    simp only [List.map_cons, List.map_nil, List.cons_append, List.cons.injEq, Prod.mk.injEq,
      true_and] at hhead
    refine hna ?_
    cases ho : (attempt S none (careful S db pre).1 item).1 <;> simp [ho, Outcome.result] at hhead ⊢
  · obtain ⟨row, hrow, -⟩ := writeRow_carries hlost.kept hw
    have hkept : ((careful S db items).1.selectRow item.id).isSome := by
      rw [hcar]
      refine foldl_carefulStep_keeps hpost ?_
      have : (carefulStep S (careful S db pre) item).1 = writeItemVersion db' item := hdb'
      rw [this, selectRow_writeItemVersion, hrow]
      rfl
    rw [← hagree.rows, hgone] at hkept
    cases hkept

/-- The comment moves to the other reminder, and its old one is deleted. -/
def movedComment : List WorkItem :=
  [change comments ["c1"] 7 (some [.string "c1", .string "r2", .string "first"]),
    change reminders ["r1"] 7 none]

end Pokyh.Cluster

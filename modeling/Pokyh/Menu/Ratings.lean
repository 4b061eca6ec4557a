import Pokyh.Lib.Groups
import Pokyh.Lib.Results
import Pokyh.Lib.Runs
import Pokyh.Lib.Tables

/-!
# Menu — Ratings

The votes for dishes (`services/dishRatings.ts`), which outlive the accounts that cast them: `reclaimDishRatings` gives
one account its earlier votes back, `reconcileDishRatings` does so for every account when the server starts.

* `collapseOnto_ok`: merging the votes of one person cannot fail on the unique key, touches no other vote, and leaves the
  newest of each dish.
* `votes_settled`: **after any operations, another one harms no other account and settles whom it is for**, for
  `reconcileDishRatings` exactly where it knows an account for each vote under a former id of one.
* `reconcile_two_votes`: one whose id is remembered under two names.
-/

namespace Pokyh.Menu.Ratings
open Pokyh.Lib

/-! ### The tables -/

/-- The key of a vote: what it is for, and whose it is. -/
structure RatingKey where
  dishId : String
  stableUid : String
  deriving DecidableEq, Repr

structure DishRating where
  /-- The account's name when it was cast. -/
  username : Option String
  stars : ℕ
  menuId : Option String
  updatedAt : ℕ
  deriving DecidableEq, Repr

abbrev DishRatings := Table RatingKey DishRating

abbrev RatingRow := RatingKey × DishRating

structure UidName where
  stableUid : String
  username : String
  deriving DecidableEq, Repr

/-- How names compare: in the database, and lowercased and trimmed by `nameKey`. -/
structure Names where
  collate : String → String
  nameKey : String → String

/-- Everything that records an account's id beside its name. -/
structure History where
  archivedUsers : List UidName
  dishComments : List UidName
  comments : List UidName
  classMembers : List UidName
  archivedTodos : List UidName
  requestLogs : List (Option String × Option String)
  activityLogs : List (Option String × Option String)
  reminders : List UidName
  archivedReminders : List UidName
  deriving Repr

/-- The accounts and what is remembered of earlier ones. -/
structure Accounts extends Names, History where
  users : List UidName
  named : ∀ u ∈ users, u.username ≠ ""
  uids : (users.map UidName.stableUid).Nodup
  names : (users.map fun u => nameKey u.username).Nodup

variable (x : Accounts)

/-! ### Who somebody was -/

/-- `distinct`: the first row of each id. -/
def distinctUids (rows : List UidName) : List UidName :=
  (distinct (rows.map UidName.stableUid)).filterMap fun uid => rows.find? (·.stableUid = uid)

/-- The rows of a log that have both. -/
def logged (rows : List (Option String × Option String)) : List UidName :=
  rows.filterMap fun r => r.1.bind fun uid => r.2.map fun name => ⟨uid, name⟩

/-- The ids and names that are remembered, of everybody or under one name. -/
def historicUidNames (username : Option String) : List UidName :=
  let isName := fun name (r : UidName) => decide (x.collate r.username = x.collate name)
  let given := username.filter (· ≠ "")
  let by' := fun r => given.all fun name => isName name r
  let nonEmpty := fun r => given.elim (!isName "" r) fun name => isName name r
  let named := fun r => username.all fun name => isName name r
  let author := fun r => username.elim (!isName "" r) fun name => isName name r
  let pairs := x.archivedUsers.filter by' ++ distinctUids (x.dishComments.filter by') ++
    distinctUids (x.comments.filter by') ++ distinctUids (x.classMembers.filter by') ++
    distinctUids (x.archivedTodos.filter nonEmpty) ++ distinctUids ((logged x.requestLogs).filter named) ++
    distinctUids ((logged x.activityLogs).filter named) ++ distinctUids (x.reminders.filter author) ++
    distinctUids (x.archivedReminders.filter author)
  pairs.filter fun r => r.stableUid ≠ "" && r.username ≠ ""

/-- Every id that name has ever had. -/
def knownUidsFor (username : String) : List String :=
  distinct ((historicUidNames x (some username)).map UidName.stableUid)

/-! ### Merging votes -/

inductive DbError where
  | notFound
  | uniqueViolation
  deriving DecidableEq, Repr

def deleteRating (t : DishRatings) (k : RatingKey) : Except DbError DishRatings :=
  if (t.lookup k).isSome then .ok (t.erase k) else .error .notFound

/-- The vote is somebody's now. -/
def DishRating.under (v : DishRating) (target : UidName) : DishRating := { v with username := some target.username }

/-- A vote is moved to another id, unless that has one. -/
def updateRating (t : DishRatings) (k : RatingKey) (target : UidName) (updatedAt : ℕ) : Except DbError DishRatings :=
  let k' : RatingKey := ⟨k.dishId, target.stableUid⟩
  match t.lookup k with
  | none => .error .notFound
  | some v =>
      if k' ≠ k ∧ (t.lookup k').isSome then .error .uniqueViolation
      else .ok ((t.erase k).insert k' { v.under target with updatedAt := updatedAt })

/-- The newest of some votes, the first of equals. -/
def newest : List RatingRow → Option RatingRow
  | [] => none
  | r :: rows => some (rows.foldl (fun a b => if b.2.updatedAt > a.2.updatedAt then b else a) r)

/-- DishRatings of one person for one dish. -/
def collapseDish (t : DishRatings) (list : List RatingRow) (target : UidName) : Except DbError DishRatings :=
  match newest list with
  | none => .ok t
  | some keeper =>
      let others := list.filter (· ≠ keeper)
      if others = [] ∧ keeper.1.stableUid = target.stableUid ∧ keeper.2.username = some target.username then .ok t
      else
        others.foldlM (fun t o => deleteRating t o.1) t >>= fun t => updateRating t keeper.1 target keeper.2.updatedAt

/-- The newest vote wins, every other one of the same person is removed. -/
def collapseOnto (t : DishRatings) (rows : List RatingRow) (target : UidName) : Except DbError DishRatings :=
  (groupBy (fun r : RatingRow => r.1.dishId) rows).foldlM (fun t g => collapseDish t g.2 target) t

/-! ### The two operations -/

/-- The votes under an account's id, its name or an id of that name. -/
def ratingsOf (t : DishRatings) (a : UidName) : List RatingRow :=
  let uids := knownUidsFor x a.username
  t.toList.filter fun r =>
    r.1.stableUid = a.stableUid || r.2.username.any (fun name => x.collate name = x.collate a.username) ||
      r.1.stableUid ∈ uids

/-- Those of them that belong to no other current account. -/
def mineOf (t : DishRatings) (a : UidName) : List RatingRow :=
  let rows := ratingsOf x t a
  let foreignUids :=
    if rows.any (·.1.stableUid ≠ a.stableUid) then
      (x.users.filter fun u => u.stableUid ∈ rows.map (·.1.stableUid) ∧ u.stableUid ≠ a.stableUid).map
        UidName.stableUid
    else []
  rows.filter (·.1.stableUid ∉ foreignUids)

def reclaimDishRatings (t : DishRatings) (a : UidName) : Except DbError DishRatings :=
  let mine := mineOf x t a
  if mine = [] then .ok t else collapseOnto t mine a

def currentUserByName : String → Option UidName := mapOf (x.users.map fun u => (x.nameKey u.username, u))

def currentNameByUid : String → Option String := mapOf (x.users.map fun u => (u.stableUid, u.username))

def historicNameByUid : String → Option String :=
  mapOf ((historicUidNames x none).map fun p => (p.stableUid, p.username))

/-- The key of the account that a vote is for. -/
def ownerKey (r : RatingRow) : Option String :=
  let owner := (currentNameByUid x r.1.stableUid).or (r.2.username.or (historicNameByUid x r.1.stableUid))
  (owner.filter fun name => name ≠ "" && (currentUserByName x (x.nameKey name)).isSome).map x.nameKey

/-- The votes by the account they are for; the others stay as history. -/
def byOwner (t : DishRatings) : List (Option String × List RatingRow) :=
  groupBy (ownerKey x) (t.toList.filter fun r => (ownerKey x r).isSome)

def reconcileDishRatings (t : DishRatings) : Except DbError DishRatings :=
  (byOwner x t).foldlM
    (fun t' g => ((g.1.bind (currentUserByName x)).elim (.ok t') fun user => collapseOnto t' g.2 user)) t

inductive Op where
  | reclaim (a : UidName)
  | reconcile
  deriving DecidableEq, Repr

def Op.apply (t : DishRatings) : Op → Except DbError DishRatings
  | .reclaim a => reclaimDishRatings x t a
  | .reconcile => reconcileDishRatings x t

/-! ### What should hold -/

/-- Whom an operation is for. -/
def Op.persons : Op → List UidName
  | .reclaim a => [a]
  | .reconcile => x.users

/-- The votes that an operation finds for a person. -/
def Op.found (t : DishRatings) (p : UidName) : Op → List RatingRow
  | .reclaim _ => mineOf x t p
  | .reconcile => t.toList.filter fun r => ownerKey x r = some (x.nameKey p.username)

/-- An id that a person has, or had before anybody else has it now. -/
def IsUidOf (p : UidName) (uid : String) : Prop :=
  uid = p.stableUid ∨ uid ∈ knownUidsFor x p.username ∧ ∀ u ∈ x.users, u.stableUid ≠ uid

/-- Nobody else's votes are among those of a person. -/
def NotForeign (p : UidName) (found : List RatingRow) : Prop :=
  ∀ r ∈ found, ∀ u ∈ x.users, u.stableUid = r.1.stableUid → u.stableUid = p.stableUid

/-- Merging these votes of a person has to do with the key. -/
def touches (p : UidName) (found : List RatingRow) (k : RatingKey) : Prop :=
  (∃ r ∈ found, r.1 = k) ∨ k.stableUid = p.stableUid ∧ ∃ r ∈ found, r.1.dishId = k.dishId

/-- The votes of a person that are found are one for each dish, the newest, under its current id. -/
structure Merged (p : UidName) (found : List RatingRow) (after : DishRatings) : Prop where
  moved : ∀ r ∈ found, r.1.stableUid ≠ p.stableUid → after.lookup r.1 = none
  newest : ∀ r ∈ found, ∃ keeper ∈ found, keeper.1.dishId = r.1.dishId ∧
    (∀ r' ∈ found, r'.1.dishId = r.1.dishId → r'.2.updatedAt ≤ keeper.2.updatedAt) ∧
    after.lookup ⟨r.1.dishId, p.stableUid⟩ = some (keeper.2.under p)

/-- A person has at most one vote for a dish under all of its ids, under the current one, and it is the newest of those
that were found. -/
structure Settled (p : UidName) (found : List RatingRow) (after : DishRatings) : Prop where
  current : ∀ k v, after.lookup k = some v → IsUidOf x p k.stableUid → k.stableUid = p.stableUid
  merged : Merged p found after

/-- Every vote under a former id of an account is for some account. -/
def Op.resolves (t : DishRatings) : Op → Prop
  | .reclaim _ => True
  | .reconcile => ∀ k v, t.lookup k = some v → ∀ p ∈ x.users, IsUidOf x p k.stableUid → k.stableUid ≠ p.stableUid →
      (ownerKey x (k, v)).isSome

/-! ### Merging is all right -/

variable {x} {t t' : DishRatings} {k : RatingKey} {v : DishRating} {p a : UidName} {list rows : List RatingRow} {r : RatingRow}

theorem newest_mem (h : newest list = some r) : r ∈ list := by
  cases list with
  | nil => cases h
  | cons a list =>
      cases h
      refine foldl_splits (P := fun done b => b ∈ a :: done) List.mem_cons_self fun done c _ _ ih => ?_
      split
      · simp
      · rcases List.mem_cons.mp ih with heq | hmem
        · rw [heq]
          exact List.mem_cons_self
        · exact List.mem_cons_of_mem _ (List.mem_append_left _ hmem)

theorem updatedAt_le_newest (h : newest list = some r) : ∀ r' ∈ list, r'.2.updatedAt ≤ r.2.updatedAt := by
  cases list with
  | nil => cases h
  | cons a list =>
      cases h
      refine foldl_splits (P := fun done (b : RatingRow) => ∀ r' ∈ a :: done, r'.2.updatedAt ≤ b.2.updatedAt)
        (by simp) fun done c _ _ ih => ?_
      intro r' hr'
      rw [← List.cons_append] at hr'
      rcases List.mem_append.mp hr' with hold | hnew
      · have hle := ih r' hold
        split <;> omega
      · rw [List.mem_singleton.mp hnew]
        split <;> omega

theorem newest_eq_none : newest list = none ↔ list = [] := by cases list <;> simp [newest]

theorem deleteAll_ok (hnodup : list.Nodup) (hin : ∀ r ∈ list, t.lookup r.1 = some r.2) :
    ∃ t', list.foldlM (fun t o => deleteRating t o.1) t = .ok t' ∧
      ∀ k, t'.lookup k = if ∃ r ∈ list, r.1 = k then none else t.lookup k := by
  refine foldlM_ok (P := fun (done : List RatingRow) (t' : DishRatings) => ∀ k, t'.lookup k = if ∃ r ∈ done, r.1 = k then none else t.lookup k)
    (by simp) fun done o rest t' hlist hdone => ?_
  have ho : o ∈ list := by simp [hlist]
  have hnot : ¬ ∃ r ∈ done, r.1 = o.1 := by
    rintro ⟨r, hr, hkey⟩
    -- rows of the table with one key are the same
    have hval : r = o := Prod.ext hkey (Option.some_inj.mp ((hin r (by simp [hlist, hr])).symm.trans (hkey ▸ hin o ho)))
    rw [hlist, List.nodup_append] at hnodup
    exact hnodup.2.2 r hr o List.mem_cons_self hval
  have hthere : t'.lookup o.1 = some o.2 := by rw [hdone, if_neg hnot, hin o ho]
  refine ⟨t'.erase o.1, by simp [deleteRating, hthere], fun k => ?_⟩
  rw [Table.lookup_erase_of, hdone]
  by_cases hk : k = o.1
  · simp [hk]
  · have hk' : ¬ o.1 = k := fun h => hk h.symm
    simp only [List.mem_append, List.mem_singleton, or_and_right, exists_or, exists_eq_left, hk, hk', or_false, if_false]

/-- The votes of one dish. -/
theorem collapseDish_ok {d : String} (hnodup : list.Nodup) (hin : ∀ r ∈ list, t.lookup r.1 = some r.2)
    (hdish : ∀ r ∈ list, r.1.dishId = d)
    (htarget : ∀ v, t.lookup ⟨d, p.stableUid⟩ = some v → (⟨d, p.stableUid⟩, v) ∈ list) {keeper : RatingRow}
    (hkeeper : newest list = some keeper) :
    ∃ t', collapseDish t list p = .ok t' ∧ ∀ k, t'.lookup k =
      if k = ⟨d, p.stableUid⟩ then some (keeper.2.under p) else if ∃ r ∈ list, r.1 = k then none else t.lookup k := by
  have hmem := newest_mem hkeeper
  have hkey : keeper.1 = ⟨d, keeper.1.stableUid⟩ := by rw [← hdish keeper hmem]
  simp only [collapseDish, hkeeper]
  split
  case isTrue hdone =>
    -- the only vote, and under the current id and name
    obtain ⟨hothers, huid, hname⟩ := hdone
    have hone : ∀ r ∈ list, r = keeper := by simpa [List.filter_eq_nil_iff] using hothers
    refine ⟨t, rfl, fun k => ?_⟩
    have hat : keeper.1 = ⟨d, p.stableUid⟩ := by rw [hkey, huid]
    by_cases hk : k = ⟨d, p.stableUid⟩
    · rw [if_pos hk, hk, ← hat, hin keeper hmem]
      simp [DishRating.under, ← hname]
    · have hno : ¬ ∃ r ∈ list, r.1 = k := by
        rintro ⟨r, hr, rfl⟩
        exact hk (by rw [hone r hr, hat])
      rw [if_neg hk, if_neg hno]
  case isFalse =>
    have hlater : ∀ r ∈ list.filter (· ≠ keeper), t.lookup r.1 = some r.2 :=
      fun r hr => hin r (List.mem_filter.mp hr).1
    obtain ⟨t₁, hdelete, hlookup⟩ := deleteAll_ok (hnodup.filter _) hlater
    have hothers : ∀ k, (∃ r ∈ list.filter (· ≠ keeper), r.1 = k) ↔ (∃ r ∈ list, r.1 = k) ∧ k ≠ keeper.1 := by
      intro k
      constructor
      · rintro ⟨r, hr, rfl⟩
        obtain ⟨hr, hne⟩ := List.mem_filter.mp hr
        refine ⟨⟨r, hr, rfl⟩, fun heq => ?_⟩
        have hval := (hin r hr).symm.trans (heq ▸ hin keeper hmem)
        exact (of_decide_eq_true hne) (Prod.ext heq (Option.some_inj.mp hval))
      · rintro ⟨⟨r, hr, rfl⟩, hne⟩
        refine ⟨r, List.mem_filter.mpr ⟨hr, decide_eq_true fun heq => hne (by rw [heq])⟩, rfl⟩
    have hthere : t₁.lookup keeper.1 = some keeper.2 := by
      rw [hlookup, if_neg fun h => ((hothers _).mp h).2 rfl, hin keeper hmem]
    have hfree : ¬ ((⟨keeper.1.dishId, p.stableUid⟩ : RatingKey) ≠ keeper.1 ∧
        (t₁.lookup ⟨keeper.1.dishId, p.stableUid⟩).isSome) := by
      rintro ⟨hne, hsome⟩
      obtain ⟨v, hv⟩ := Option.isSome_iff_exists.mp hsome
      rw [hlookup] at hv
      split at hv
      · cases hv
      · next hno =>
          rw [hdish keeper hmem] at hv hno hne
          exact hno ((hothers _).mpr ⟨⟨_, htarget v hv, rfl⟩, hne⟩)
    refine ⟨(t₁.erase keeper.1).insert ⟨keeper.1.dishId, p.stableUid⟩ (keeper.2.under p), ?_, fun k => ?_⟩
    · rw [bind_eq_ok]
      refine ⟨t₁, hdelete, ?_⟩
      simp only [updateRating, hthere, if_neg hfree]
      rfl
    · rw [Table.lookup_insert_of, Table.lookup_erase_of, hlookup, hdish keeper hmem]
      by_cases hk : k = ⟨d, p.stableUid⟩
      · rw [if_pos hk, if_pos hk]
      · rw [if_neg hk, if_neg hk]
        by_cases hkk : k = keeper.1
        · rw [if_pos hkk, if_pos ⟨keeper, hmem, hkk.symm⟩]
        · rw [if_neg hkk]
          simp only [hothers, hkk, ne_eq, not_false_eq_true, and_true]

/-- What merging makes of a key. -/
def collapsed (t : DishRatings) (rows : List RatingRow) (p : UidName) (k : RatingKey) : Option DishRating :=
  match newest (rows.filter fun r => r.1.dishId = k.dishId) with
  | none => t.lookup k
  | some keeper =>
      if k.stableUid = p.stableUid then some (keeper.2.under p)
      else if ∃ r ∈ rows, r.1 = k then none else t.lookup k

theorem collapseOnto_eq (hnodup : rows.Nodup) (hin : ∀ r ∈ rows, t.lookup r.1 = some r.2)
    (htarget : ∀ k v, t.lookup k = some v → k.stableUid = p.stableUid → (k, v) ∈ rows) :
    ∃ t', collapseOnto t rows p = .ok t' ∧ ∀ k, t'.lookup k = collapsed t rows p k := by
  -- dish after dish: the dishes still to come are as they were
  have hloop : ∃ t', collapseOnto t rows p = .ok t' ∧ ∀ k : RatingKey, t'.lookup k =
      if k.dishId ∈ (groupBy (fun r : RatingRow => r.1.dishId) rows).map Prod.fst then collapsed t rows p k
      else t.lookup k := by
    refine foldlM_ok (P := fun (done : List (String × List RatingRow)) (t' : DishRatings) => ∀ k : RatingKey,
      t'.lookup k = if k.dishId ∈ done.map Prod.fst then collapsed t rows p k else t.lookup k)
      (by simp) fun done g rest t' hgroups hdone => ?_
    obtain ⟨d, list⟩ := g
    have hg : (d, list) ∈ groupBy (fun r : RatingRow => r.1.dishId) rows := by rw [hgroups]; simp
    obtain ⟨⟨r₀, hr₀, hd₀⟩, rfl⟩ := mem_groupBy.mp hg
    have hd : d ∉ done.map Prod.fst := by
      have hkeys : ((groupBy (fun r : RatingRow => r.1.dishId) rows).map Prod.fst).Nodup := by
        simpa [groupBy, Function.comp_def] using List.nodup_dedup _
      rw [hgroups, List.map_append, List.map_cons, List.nodup_append] at hkeys
      exact fun hmem => hkeys.2.2 d hmem d List.mem_cons_self rfl
    have hsame : ∀ k : RatingKey, k.dishId = d → t'.lookup k = t.lookup k := by
      intro k hk
      rw [hdone, if_neg (hk ▸ hd)]
    have hgroup : ∀ r ∈ rows.filter fun r => r.1.dishId = d, r ∈ rows ∧ r.1.dishId = d := by simp
    have hmem₀ : r₀ ∈ rows.filter fun r => r.1.dishId = d := by simp [hr₀, hd₀]
    obtain ⟨keeper, hkeeper⟩ := Option.ne_none_iff_exists'.mp fun hnone =>
      List.ne_nil_of_mem hmem₀ (newest_eq_none.mp hnone)
    have hnow : ∀ v, t'.lookup ⟨d, p.stableUid⟩ = some v →
        ((⟨d, p.stableUid⟩, v) : RatingRow) ∈ rows.filter fun r => r.1.dishId = d := by
      intro v hv
      rw [hsame _ rfl] at hv
      exact List.mem_filter.mpr ⟨htarget _ v hv rfl, by simp⟩
    obtain ⟨t'', hok, hlookup⟩ := collapseDish_ok (t := t') (p := p) (d := d) (hnodup.filter _)
      (fun r hr => (hsame r.1 (hgroup r hr).2).trans (hin r (hgroup r hr).1)) (fun r hr => (hgroup r hr).2)
      hnow hkeeper
    refine ⟨t'', hok, fun k => ?_⟩
    rw [hlookup, hdone]
    by_cases hk : k.dishId = d
    · subst hk
      have hkey : k = ⟨k.dishId, p.stableUid⟩ ↔ k.stableUid = p.stableUid := by
        obtain ⟨dish, uid⟩ := k
        simp
      have hmem : (∃ r ∈ rows.filter fun r => r.1.dishId = k.dishId, r.1 = k) ↔ ∃ r ∈ rows, r.1 = k := by
        constructor
        · rintro ⟨r, hr, hrk⟩
          exact ⟨r, (hgroup r hr).1, hrk⟩
        · rintro ⟨r, hr, rfl⟩
          exact ⟨r, by simpa using hr, rfl⟩
      simp only [collapsed, hkeeper, hkey, hmem, hd, List.map_append, List.map_cons, List.map_nil, List.mem_append,
        List.mem_singleton, or_true, if_true, if_false]
    · have hne : k ≠ ⟨d, p.stableUid⟩ := fun h => hk (by rw [h])
      have hno : ¬ ∃ r ∈ rows.filter fun r => r.1.dishId = d, r.1 = k := by
        rintro ⟨r, hr, rfl⟩
        exact hk (hgroup r hr).2
      simp only [hne, hno, hk, if_false, List.map_append, List.map_cons, List.map_nil, List.mem_append,
        List.mem_singleton, or_false]
  obtain ⟨t', hok, hlookup⟩ := hloop
  refine ⟨t', hok, fun k => ?_⟩
  rw [hlookup]
  split
  · rfl
  · -- a dish nobody has voted for
    next hno =>
      have hnone : newest (rows.filter fun r => r.1.dishId = k.dishId) = none := by
        rw [newest_eq_none, List.filter_eq_nil_iff]
        intro r hr hdish
        refine hno (List.mem_map.mpr ⟨(k.dishId, _), mem_groupBy.mpr ⟨⟨r, hr, of_decide_eq_true hdish⟩, rfl⟩, rfl⟩)
      simp only [collapsed, hnone]

/-- **Merging cannot fail**, when the votes under the current id are among those that are merged. -/
theorem collapseOnto_ok (hnodup : rows.Nodup) (hin : ∀ r ∈ rows, t.lookup r.1 = some r.2)
    (htarget : ∀ k v, t.lookup k = some v → k.stableUid = p.stableUid → (k, v) ∈ rows) :
    ∃ t', collapseOnto t rows p = .ok t' ∧ (∀ k, ¬ touches p rows k → t'.lookup k = t.lookup k) ∧ Merged p rows t' := by
  obtain ⟨t', hok, hlookup⟩ := collapseOnto_eq hnodup hin htarget
  have hkeeper : ∀ r ∈ rows, ∃ keeper, newest (rows.filter fun r' => r'.1.dishId = r.1.dishId) = some keeper := by
    intro r hr
    refine Option.ne_none_iff_exists'.mp fun hnone => ?_
    exact List.ne_nil_of_mem (List.mem_filter.mpr ⟨hr, by simp⟩) (newest_eq_none.mp hnone)
  refine ⟨t', hok, fun k hk => ?_, ⟨fun r hr hne => ?_, fun r hr => ?_⟩⟩
  · rw [hlookup, collapsed]
    split
    · rfl
    · next keeper hnewest =>
        obtain ⟨hmem, hdish⟩ := List.mem_filter.mp (newest_mem hnewest)
        rw [if_neg fun huid => hk (.inr ⟨huid, keeper, hmem, of_decide_eq_true hdish⟩),
          if_neg fun hrow => hk (.inl hrow)]
  · obtain ⟨keeper, hnewest⟩ := hkeeper r hr
    simp only [hlookup, collapsed, hnewest, if_neg hne]
    exact if_pos ⟨r, hr, rfl⟩
  · obtain ⟨keeper, hnewest⟩ := hkeeper r hr
    obtain ⟨hmem, hdish⟩ := List.mem_filter.mp (newest_mem hnewest)
    refine ⟨keeper, hmem, of_decide_eq_true hdish, fun r' hr' hsame => ?_, ?_⟩
    · exact updatedAt_le_newest hnewest r' (List.mem_filter.mpr ⟨hr', decide_eq_true hsame⟩)
    · simp only [hlookup, collapsed, hnewest, if_true]

/-- **Merging what is merged changes nothing.** -/
theorem collapseOnto_done (hnodup : (rows.map Prod.fst).Nodup)
    (hdone : ∀ r ∈ rows, r.1.stableUid = p.stableUid ∧ r.2.username = some p.username) :
    collapseOnto t rows p = .ok t := by
  have hloop : ∃ t', collapseOnto t rows p = .ok t' ∧ t' = t := by
    refine foldlM_ok (P := fun _ (t' : DishRatings) => t' = t) rfl fun done g rest t' hgroups ht => ?_
    refine ⟨t', ?_, ht⟩
    obtain ⟨d, list⟩ := g
    have hg : (d, list) ∈ groupBy (fun r : RatingRow => r.1.dishId) rows := by rw [hgroups]; simp
    obtain ⟨-, rfl⟩ := mem_groupBy.mp hg
    cases hkeeper : newest (rows.filter fun r => r.1.dishId = d) with
    | none => simp only [collapseDish, hkeeper]
    | some keeper =>
        obtain ⟨hmem, hdish⟩ := List.mem_filter.mp (newest_mem hkeeper)
        simp only [collapseDish, hkeeper]
        refine if_pos ⟨List.filter_eq_nil_iff.mpr fun r hr hne => ?_, hdone keeper hmem⟩
        obtain ⟨hr, hrd⟩ := List.mem_filter.mp hr
        have hkey : r.1 = keeper.1 := by
          have hsame : r.1.dishId = keeper.1.dishId := (of_decide_eq_true hrd).trans (of_decide_eq_true hdish).symm
          have huid : r.1.stableUid = keeper.1.stableUid := (hdone r hr).1.trans (hdone keeper hmem).1.symm
          cases hk : r.1
          cases hk' : keeper.1
          simp_all
        exact of_decide_eq_true hne (List.inj_on_of_nodup_map hnodup hr hmem hkey)
  obtain ⟨t', hok, rfl⟩ := hloop
  exact hok

/-! ### One account's votes -/

theorem mem_ratingsOf : r ∈ ratingsOf x t a ↔ t.lookup r.1 = some r.2 ∧
    (r.1.stableUid = a.stableUid ∨ (∃ name ∈ r.2.username, x.collate name = x.collate a.username) ∨
      r.1.stableUid ∈ knownUidsFor x a.username) := by
  obtain ⟨k, v⟩ := r
  simp only [ratingsOf, List.mem_filter, Table.mem_toList, Bool.or_eq_true, decide_eq_true_eq, Option.any_eq_true,
    Option.mem_def, or_assoc]

theorem mem_mineOf : r ∈ mineOf x t a ↔
    r ∈ ratingsOf x t a ∧ ∀ u ∈ x.users, u.stableUid = r.1.stableUid → u.stableUid = a.stableUid := by
  simp only [mineOf, List.mem_filter, decide_eq_true_eq]
  refine and_congr_right fun hr => ?_
  split
  case isTrue =>
    simp only [List.mem_map, List.mem_filter, decide_eq_true_eq, not_exists, not_and]
    constructor
    · intro h u hu hk
      by_contra hne
      exact h u ⟨hu, ⟨r, hr, hk.symm⟩, hne⟩ hk
    · rintro h u ⟨hu, -, hne⟩ hk
      exact hne (h u hu hk)
  case isFalse hall =>
    -- all of them are under the current id
    have hk : r.1.stableUid = a.stableUid := by
      by_contra hne
      exact hall (List.any_eq_true.mpr ⟨r, hr, decide_eq_true hne⟩)
    simp [hk]

theorem nodup_mineOf : ((mineOf x t a).map Prod.fst).Nodup := by
  refine (Table.nodup_toList t).sublist (List.Sublist.map _ ?_)
  exact List.filter_sublist.trans List.filter_sublist

theorem lookup_of_mineOf (hr : r ∈ mineOf x t a) : t.lookup r.1 = some r.2 := (mem_ratingsOf.mp (mem_mineOf.mp hr).1).1

theorem mineOf_target (h : t.lookup k = some v) (hk : k.stableUid = a.stableUid) : (k, v) ∈ mineOf x t a :=
  mem_mineOf.mpr ⟨mem_ratingsOf.mpr ⟨h, .inl hk⟩, fun _ _ hu => hu.trans hk⟩

theorem reclaim_eq : reclaimDishRatings x t a = collapseOnto t (mineOf x t a) a := by
  simp only [reclaimDishRatings]
  split
  · next h => rw [h]; rfl
  · rfl

/-- What an operation must do: nothing to anybody else, and its own. -/
structure Op.Right (x : Accounts) (op : Op) (t t' : DishRatings) : Prop where
  notForeign : ∀ p ∈ op.persons x, NotForeign x p (op.found x t p)
  frame : ∀ k, (∀ p ∈ op.persons x, ¬ touches p (op.found x t p) k) → t'.lookup k = t.lookup k
  merged : ∀ p ∈ op.persons x, Merged p (op.found x t p) t'
  again : op.apply x t' = .ok t'

theorem reclaim_right : ∃ t', reclaimDishRatings x t a = .ok t' ∧ Op.Right x (.reclaim a) t t' := by
  have htarget : ∀ k v, t.lookup k = some v → k.stableUid = a.stableUid → (k, v) ∈ mineOf x t a :=
    fun k v h hk => mineOf_target h hk
  obtain ⟨t', hok, hframe, hmerged⟩ := collapseOnto_ok nodup_mineOf.of_map (fun r hr => lookup_of_mineOf hr) htarget
  rw [reclaim_eq]
  refine ⟨t', hok, ?_, ?_, ?_, ?_⟩
  · intro p hp r hr u hu huid
    rw [List.mem_singleton.mp hp] at hr ⊢
    exact (mem_mineOf.mp hr).2 u hu huid
  · exact fun k hk => hframe k (hk a List.mem_cons_self)
  · intro p hp
    rw [List.mem_singleton.mp hp]
    exact hmerged
  · have heq : Op.apply x t' (.reclaim a) = collapseOnto t' (mineOf x t' a) a := reclaim_eq
    rw [heq]
    refine collapseOnto_done nodup_mineOf fun r hr => ?_
    obtain ⟨hrow, hforeign⟩ := mem_mineOf.mp hr
    obtain ⟨hthere, hmine⟩ := mem_ratingsOf.mp hrow
    by_cases htouch : touches a (mineOf x t a) r.1
    · have hcur : r.1.stableUid = a.stableUid := by
        rcases htouch with ⟨r', hr', hkey⟩ | ⟨huid, -⟩
        · by_contra hne
          rw [← hkey] at hne
          have hgone := hmerged.moved r' hr' hne
          rw [hkey, hthere] at hgone
          cases hgone
        · exact huid
      obtain ⟨r', hr', hdish⟩ : ∃ r' ∈ mineOf x t a, r'.1.dishId = r.1.dishId := by
        rcases htouch with ⟨r', hr', hkey⟩ | ⟨-, h⟩
        · exact ⟨r', hr', by rw [hkey]⟩
        · exact h
      obtain ⟨keeper, -, -, -, hnow⟩ := hmerged.newest r' hr'
      have hkey : (⟨r'.1.dishId, a.stableUid⟩ : RatingKey) = r.1 := by rw [hdish, ← hcur]
      rw [hkey, hthere, Option.some_inj] at hnow
      exact ⟨hcur, by rw [hnow]; rfl⟩
    · -- what was not touched was not found
      have hbefore := hframe r.1 htouch
      rw [hthere] at hbefore
      exact absurd (.inl ⟨r, mem_mineOf.mpr ⟨mem_ratingsOf.mpr ⟨hbefore.symm, hmine⟩, hforeign⟩, rfl⟩) htouch

/-! ### Everybody's votes -/

theorem currentUserByName_eq_some {name : String} {u : UidName} :
    currentUserByName x name = some u ↔ u ∈ x.users ∧ x.nameKey u.username = name := by
  rw [currentUserByName, mapOf_eq_some (by simpa [Function.comp_def] using x.names)]
  simp only [List.mem_map, Prod.mk.injEq]
  constructor
  · rintro ⟨u', hu', hname, rfl⟩
    exact ⟨hu', hname⟩
  · rintro ⟨hu, hname⟩
    exact ⟨u, hu, hname, rfl⟩

/-- Accounts are told apart by their ids, and by their names. -/
theorem eq_of_stableUid {u u' : UidName} (hu : u ∈ x.users) (hu' : u' ∈ x.users) (h : u.stableUid = u'.stableUid) :
    u = u' :=
  List.inj_on_of_nodup_map x.uids hu hu' h

theorem eq_of_nameKey {u u' : UidName} (hu : u ∈ x.users) (hu' : u' ∈ x.users)
    (h : x.nameKey u.username = x.nameKey u'.username) : u = u' :=
  List.inj_on_of_nodup_map x.names hu hu' h

theorem currentNameByUid_eq {u : UidName} (hu : u ∈ x.users) : currentNameByUid x u.stableUid = some u.username := by
  rw [currentNameByUid, mapOf_eq_some (by simpa [Function.comp_def] using x.uids)]
  exact List.mem_map_of_mem hu

/-- A vote under the id of an account is that account's. -/
theorem ownerKey_of_current {u : UidName} (hu : u ∈ x.users) (hr : r.1.stableUid = u.stableUid) :
    ownerKey x r = some (x.nameKey u.username) := by
  have huser : (currentUserByName x (x.nameKey u.username)).isSome :=
    Option.isSome_iff_exists.mpr ⟨u, currentUserByName_eq_some.mpr ⟨hu, rfl⟩⟩
  simp [ownerKey, hr, currentNameByUid_eq hu, x.named u hu, huser]

theorem exists_user_of_ownerKey {key : String} (h : ownerKey x r = some key) :
    ∃ u ∈ x.users, x.nameKey u.username = key := by
  obtain ⟨name, hname, rfl⟩ := Option.map_eq_some_iff.mp h
  obtain ⟨-, hname⟩ := Option.filter_eq_some_iff.mp hname
  rw [Bool.and_eq_true] at hname
  obtain ⟨u, hu⟩ := Option.isSome_iff_exists.mp hname.2
  exact ⟨u, currentUserByName_eq_some.mp hu⟩

/-- The votes that are an account's. -/
abbrev ownedBy (x : Accounts) (t : DishRatings) (u : UidName) : List RatingRow := Op.found x t u .reconcile

theorem mem_ownedBy {u : UidName} :
    r ∈ ownedBy x t u ↔ t.lookup r.1 = some r.2 ∧ ownerKey x r = some (x.nameKey u.username) := by
  obtain ⟨k, v⟩ := r
  simp [ownedBy, Op.found, Table.mem_toList]

theorem nodup_ownedBy {u : UidName} : ((ownedBy x t u).map Prod.fst).Nodup :=
  (Table.nodup_toList t).sublist (List.filter_sublist.map _)

theorem mem_byOwner {g : Option String × List RatingRow} (h : g ∈ byOwner x t) :
    ∃ u ∈ x.users, g = (some (x.nameKey u.username), ownedBy x t u) := by
  obtain ⟨key, list⟩ := g
  obtain ⟨⟨r, hr, rfl⟩, rfl⟩ := mem_groupBy.mp h
  obtain ⟨name, hname⟩ := Option.isSome_iff_exists.mp (List.mem_filter.mp hr).2
  obtain ⟨u, hu, rfl⟩ := exists_user_of_ownerKey hname
  refine ⟨u, hu, Prod.ext hname ?_⟩
  rw [hname, List.filter_filter]
  refine List.filter_congr fun r' _ => ?_
  by_cases h' : ownerKey x r' = some (x.nameKey u.username) <;> simp [h']

theorem byOwner_mem {u : UidName} (hu : r ∈ ownedBy x t u) :
    (some (x.nameKey u.username), ownedBy x t u) ∈ byOwner x t := by
  obtain ⟨hthere, howner⟩ := mem_ownedBy.mp hu
  refine mem_groupBy.mpr ⟨⟨r, ?_, howner⟩, ?_⟩
  · obtain ⟨k, v⟩ := r
    simp [Table.mem_toList, hthere, howner]
  · rw [List.filter_filter]
    refine List.filter_congr fun r' _ => ?_
    by_cases h' : ownerKey x r' = some (x.nameKey u.username) <;> simp [h']

/-- What one account's merging has to do with is no other account's. -/
theorem owner_of_touches {u u' : UidName} (hu : u ∈ x.users) (hu' : u' ∈ x.users) (h : touches u (ownedBy x t u) k)
    (hk : k.stableUid = u'.stableUid ∨ (k, v) ∈ ownedBy x t u') : u = u' := by
  rcases h with ⟨r, hr, rfl⟩ | ⟨huid, -⟩
  · obtain ⟨hthere, howner⟩ := mem_ownedBy.mp hr
    have howner' : ownerKey x r = some (x.nameKey u'.username) := by
      rcases hk with hcurrent | hmem
      · exact ownerKey_of_current hu' hcurrent
      · obtain ⟨hthere', howner'⟩ := mem_ownedBy.mp hmem
        have hrow : (r.1, v) = r := Prod.ext rfl (Option.some_inj.mp (hthere'.symm.trans hthere))
        exact hrow ▸ howner'
    exact eq_of_nameKey hu hu' (Option.some_inj.mp (howner.symm.trans howner'))
  · rcases hk with hcurrent | hmem
    · exact eq_of_stableUid hu hu' (huid.symm.trans hcurrent)
    · have howner := (mem_ownedBy.mp hmem).2
      rw [ownerKey_of_current (r := (k, v)) hu huid] at howner
      exact eq_of_nameKey hu hu' (Option.some_inj.mp howner)

/-- Merging elsewhere leaves what was merged. -/
theorem Merged.frame (h : Merged p rows t) (hmoved : ∀ r ∈ rows, t'.lookup r.1 = t.lookup r.1)
    (hcurrent : ∀ d, t'.lookup ⟨d, p.stableUid⟩ = t.lookup ⟨d, p.stableUid⟩) : Merged p rows t' where
  moved r hr hne := (hmoved r hr).trans (h.moved r hr hne)
  newest r hr := by
    obtain ⟨keeper, hmem, hdish, hle, hnow⟩ := h.newest r hr
    exact ⟨keeper, hmem, hdish, hle, (hcurrent _).trans hnow⟩

theorem reconcile_loop : ∃ t', reconcileDishRatings x t = .ok t' ∧
    (∀ k, (∀ u ∈ x.users, ¬ touches u (ownedBy x t u) k) → t'.lookup k = t.lookup k) ∧
    ∀ u ∈ x.users, Merged u (ownedBy x t u) t' := by
  have hkeys : ((byOwner x t).map Prod.fst).Nodup := by
    simpa [byOwner, groupBy, Function.comp_def] using List.nodup_dedup _
  -- account after account: `done` are those whose votes are merged
  obtain ⟨t', hok, hframe, hmerged⟩ : ∃ t', reconcileDishRatings x t = .ok t' ∧
      (∀ k, (∀ u ∈ x.users, (some (x.nameKey u.username), ownedBy x t u) ∈ byOwner x t →
        ¬ touches u (ownedBy x t u) k) → t'.lookup k = t.lookup k) ∧
      ∀ u ∈ x.users, (some (x.nameKey u.username), ownedBy x t u) ∈ byOwner x t → Merged u (ownedBy x t u) t' := by
    refine foldlM_ok (P := fun (done : List (Option String × List RatingRow)) (t' : DishRatings) =>
      (∀ k, (∀ u ∈ x.users, (some (x.nameKey u.username), ownedBy x t u) ∈ done →
        ¬ touches u (ownedBy x t u) k) → t'.lookup k = t.lookup k) ∧
      ∀ u ∈ x.users, (some (x.nameKey u.username), ownedBy x t u) ∈ done → Merged u (ownedBy x t u) t')
      (by simp) fun done g rest t' hgroups hdone => ?_
    obtain ⟨hframe, hmerged⟩ := hdone
    obtain ⟨u, hu, rfl⟩ := mem_byOwner (hgroups ▸ by simp : g ∈ byOwner x t)
    have hnew : ∀ u' ∈ x.users, (some (x.nameKey u'.username), ownedBy x t u') ∈ done → u' ≠ u := by
      rintro u' - hmem rfl
      rw [hgroups, List.map_append, List.map_cons, List.nodup_append] at hkeys
      exact hkeys.2.2 _ (List.mem_map_of_mem hmem) _ List.mem_cons_self rfl
    have hsame : ∀ k v, k.stableUid = u.stableUid ∨ (k, v) ∈ ownedBy x t u → t'.lookup k = t.lookup k := by
      intro k v hk
      exact hframe k fun u' hu' hmem htouch => hnew u' hu' hmem (owner_of_touches hu' hu htouch hk)
    have hin : ∀ r ∈ ownedBy x t u, t'.lookup r.1 = some r.2 := fun r hr =>
      (hsame r.1 r.2 (.inr hr)).trans (mem_ownedBy.mp hr).1
    have htarget : ∀ k v, t'.lookup k = some v → k.stableUid = u.stableUid → (k, v) ∈ ownedBy x t u := by
      intro k v hv hk
      rw [hsame k v (.inl hk)] at hv
      exact mem_ownedBy.mpr ⟨hv, ownerKey_of_current hu hk⟩
    obtain ⟨t'', hok, hframe', hmerged'⟩ := collapseOnto_ok nodup_ownedBy.of_map hin htarget
    have huser : (some (x.nameKey u.username)).bind (currentUserByName x) = some u :=
      currentUserByName_eq_some.mpr ⟨hu, rfl⟩
    refine ⟨t'', by simpa [huser] using hok, fun k hk => ?_, fun u' hu' hmem => ?_⟩
    · rw [hframe' k (hk u hu (by simp)), hframe k fun u' hu' hmem => hk u' hu' (List.mem_append_left _ hmem)]
    · rcases List.mem_append.mp hmem with hold | hlast
      · -- what was merged before is somebody else's
        have hne := hnew u' hu' hold
        refine (hmerged u' hu' hold).frame (fun r hr => ?_) fun d => ?_
        · exact hframe' r.1 fun htouch => hne (owner_of_touches (v := r.2) hu hu' htouch (.inr hr)).symm
        · refine hframe' _ fun htouch => hne (owner_of_touches (v := ⟨none, 0, none, 0⟩) hu hu' htouch (.inl rfl)).symm
      · have hkey := congrArg Prod.fst (List.mem_singleton.mp hlast)
        rw [eq_of_nameKey hu' hu (Option.some_inj.mp hkey)]
        exact hmerged'
  -- accounts without a vote have nothing to merge
  have hgroup : ∀ u, ∀ r ∈ ownedBy x t u, (some (x.nameKey u.username), ownedBy x t u) ∈ byOwner x t :=
    fun u r hr => byOwner_mem hr
  refine ⟨t', hok, fun k hk => hframe k fun u hu _ => hk u hu, fun u hu => ?_⟩
  by_cases hmem : (some (x.nameKey u.username), ownedBy x t u) ∈ byOwner x t
  · exact hmerged u hu hmem
  · exact ⟨fun r hr => absurd (hgroup u r hr) hmem, fun r hr => absurd (hgroup u r hr) hmem⟩

theorem reconcile_right : ∃ t', reconcileDishRatings x t = .ok t' ∧ Op.Right x .reconcile t t' := by
  obtain ⟨t', hok, hframe, hmerged⟩ := reconcile_loop (x := x) (t := t)
  refine ⟨t', hok, ?_, hframe, hmerged, ?_⟩
  · intro p hp r hr u hu huid
    have howner := (mem_ownedBy.mp hr).2
    rw [ownerKey_of_current hu huid.symm] at howner
    rw [eq_of_nameKey hu hp (Option.some_inj.mp howner)]
  · have hdone : ∀ u ∈ x.users, ∀ r ∈ ownedBy x t' u, r.1.stableUid = u.stableUid ∧ r.2.username = some u.username := by
      intro u hu r hr
      obtain ⟨hthere, howner⟩ := mem_ownedBy.mp hr
      by_cases htouch : ∃ p ∈ x.users, touches p (ownedBy x t p) r.1
      · obtain ⟨p, hp, htouch⟩ := htouch
        have hcur : r.1.stableUid = p.stableUid := by
          rcases htouch with ⟨r', hr', hkey⟩ | ⟨huid, -⟩
          · by_contra hne
            rw [← hkey] at hne
            have hgone := (hmerged p hp).moved r' hr' hne
            rw [hkey, hthere] at hgone
            cases hgone
          · exact huid
        obtain ⟨r', hr', hdish⟩ : ∃ r' ∈ ownedBy x t p, r'.1.dishId = r.1.dishId := by
          rcases htouch with ⟨r', hr', hkey⟩ | ⟨-, h⟩
          · exact ⟨r', hr', by rw [hkey]⟩
          · exact h
        obtain ⟨keeper, -, -, -, hnow⟩ := (hmerged p hp).newest r' hr'
        have hkey : (⟨r'.1.dishId, p.stableUid⟩ : RatingKey) = r.1 := by rw [hdish, ← hcur]
        rw [hkey, hthere, Option.some_inj] at hnow
        rw [ownerKey_of_current hp hcur] at howner
        obtain rfl := eq_of_nameKey hp hu (Option.some_inj.mp howner)
        exact ⟨hcur, by rw [hnow]; rfl⟩
      · -- what was not touched was nobody's
        have hbefore := hframe r.1 fun p hp h => htouch ⟨p, hp, h⟩
        rw [hthere] at hbefore
        exact absurd ⟨u, hu, .inl ⟨r, mem_ownedBy.mpr ⟨hbefore.symm, howner⟩, rfl⟩⟩ htouch
    have hloop : ∃ t'', reconcileDishRatings x t' = .ok t'' ∧ t'' = t' := by
      refine foldlM_ok (P := fun _ (t'' : DishRatings) => t'' = t') rfl fun done g rest t'' hgroups ht => ?_
      refine ⟨t'', ?_, ht⟩
      obtain ⟨u, hu, rfl⟩ := mem_byOwner (hgroups ▸ by simp : g ∈ byOwner x t')
      have huser : (some (x.nameKey u.username)).bind (currentUserByName x) = some u :=
        currentUserByName_eq_some.mpr ⟨hu, rfl⟩
      rw [huser]
      exact collapseOnto_done nodup_ownedBy (hdone u hu)
    obtain ⟨t'', hok', rfl⟩ := hloop
    exact hok'

/-! ### Any operations -/

theorem Op.apply_right (op : Op) (t : DishRatings) : ∃ t', op.apply x t = .ok t' ∧ Op.Right x op t t' := by
  cases op with
  | reclaim a => exact reclaim_right
  | reconcile => exact reconcile_right

/-- A vote under the id of a current account changes only on behalf of that account. -/
theorem Op.Right.unharmed {op : Op} (h : Op.Right x op t t') {u : UidName} (hu : u ∈ x.users) {d : String}
    (hnot : ¬ ∃ p ∈ op.persons x, p.stableUid = u.stableUid ∧ ∃ r ∈ op.found x t p, r.1.dishId = d) :
    t'.lookup ⟨d, u.stableUid⟩ = t.lookup ⟨d, u.stableUid⟩ := by
  refine h.frame _ fun p hp htouch => hnot ⟨p, hp, ?_⟩
  rcases htouch with ⟨r, hr, hkey⟩ | ⟨huid, hdish⟩
  · exact ⟨(h.notForeign p hp r hr u hu (by rw [hkey])).symm, r, hr, by rw [hkey]⟩
  · exact ⟨huid.symm, hdish⟩

/-- What is left under a former id was found for nobody. -/
theorem Op.Right.former {op : Op} (h : Op.Right x op t t') (hp : p ∈ op.persons x) (hv : t'.lookup k = some v)
    (hk : ∀ u ∈ x.users, u.stableUid ≠ k.stableUid) (hne : ∀ q ∈ op.persons x, k.stableUid ≠ q.stableUid) :
    t.lookup k = some v ∧ (k, v) ∉ op.found x t p := by
  have huntouched : ∀ q ∈ op.persons x, ¬ touches q (op.found x t q) k := by
    rintro q hq (⟨r, hr, rfl⟩ | ⟨huid, -⟩)
    · have hgone := (h.merged q hq).moved r hr (hne q hq)
      rw [hv] at hgone
      cases hgone
    · exact hne q hq huid
  refine ⟨(h.frame k huntouched).symm.trans hv, fun hmem => huntouched p hp (.inl ⟨_, hmem, rfl⟩)⟩

theorem Op.Right.settled_iff {op : Op} (h : Op.Right x op t t') :
    (∀ p ∈ op.persons x, Settled x p (op.found x t p) t') ↔ op.resolves x t := by
  constructor
  · cases op with
    | reclaim a => exact fun _ => trivial
    | reconcile =>
        intro hsettled k v hv p hp huid hne
        by_contra hnone
        obtain ⟨-, hnobody⟩ := huid.resolve_left hne
        -- a vote for no account is not touched, and stays under the former id
        have hthere : t'.lookup k = some v := by
          refine (h.frame k fun q hq htouch => ?_).trans hv
          rcases htouch with ⟨r, hr, rfl⟩ | ⟨hcur, -⟩
          · obtain ⟨hv', howner⟩ := mem_ownedBy.mp hr
            have hrow : (r.1, v) = r := Prod.ext rfl (Option.some_inj.mp (hv.symm.trans hv'))
            exact hnone (Option.isSome_iff_exists.mpr ⟨_, hrow ▸ howner⟩)
          · exact hnobody q hq hcur.symm
        exact hne ((hsettled p hp).current k v hthere huid)
  · intro hresolves p hp
    refine ⟨fun k v hv huid => ?_, h.merged p hp⟩
    by_contra hne
    obtain ⟨hknown, hnobody⟩ := huid.resolve_left hne
    cases op with
    | reclaim a =>
        obtain rfl := List.mem_singleton.mp hp
        have hothers : ∀ q ∈ Op.persons x (.reclaim p), k.stableUid ≠ q.stableUid := by
          intro q hq
          rw [List.mem_singleton.mp hq]
          exact hne
        obtain ⟨hbefore, hnot⟩ := h.former hp hv hnobody hothers
        refine hnot (mem_mineOf.mpr ⟨mem_ratingsOf.mpr ⟨hbefore, .inr (.inr hknown)⟩, ?_⟩)
        exact fun u hu heq => absurd heq (hnobody u hu)
    | reconcile =>
        have hothers : ∀ q ∈ Op.persons x .reconcile, k.stableUid ≠ q.stableUid := fun q hq heq => hnobody q hq heq.symm
        obtain ⟨hbefore, -⟩ := h.former hp hv hnobody hothers
        obtain ⟨key, howner⟩ := Option.isSome_iff_exists.mp (hresolves k v hbefore p hp huid hne)
        obtain ⟨u, hu, rfl⟩ := exists_user_of_ownerKey howner
        exact (h.former (p := u) hu hv hnobody hothers).2 (mem_ownedBy.mpr ⟨hbefore, howner⟩)

/-- **After any operations, another one cannot fail, takes nobody else's votes, changes nothing when it is run again, and
settles those whom it is for**: `reclaimDishRatings` always, `reconcileDishRatings` exactly where every vote under a former
id of an account is for some account. -/
theorem votes_settled (x : Accounts) (votes : DishRatings) (ops : List Op) (op : Op) :
    ∃ before after, ops.foldlM (Op.apply x) votes = .ok before ∧ op.apply x before = .ok after ∧
      (∀ p ∈ op.persons x, NotForeign x p (op.found x before p)) ∧
      (∀ u ∈ x.users, ∀ d,
        ¬ (∃ p ∈ op.persons x, p.stableUid = u.stableUid ∧ ∃ r ∈ op.found x before p, r.1.dishId = d) →
          after.lookup ⟨d, u.stableUid⟩ = before.lookup ⟨d, u.stableUid⟩) ∧
      op.apply x after = .ok after ∧
      ((∀ p ∈ op.persons x, Settled x p (op.found x before p) after) ↔ op.resolves x before) := by
  obtain ⟨before, hbefore, -⟩ := foldlM_ok (f := Op.apply x) (P := fun _ _ => True) (l := ops) (b := votes) trivial
    fun _ op _ t _ _ => (op.apply_right t).imp fun t' h => ⟨h.1, trivial⟩
  obtain ⟨after, hafter, hright⟩ := op.apply_right (x := x) before
  exact ⟨before, after, hbefore, hafter, hright.notForeign, fun u hu d => hright.unharmed hu, hright.again,
    hright.settled_iff⟩

/-! ### Where an account is not known by one name -/

/-- Anna has a new id, V. Under the former, U, she wrote a comment, and a request was logged under a name that she had
before. -/
def renamed : Accounts where
  collate := id
  nameKey := id
  archivedUsers := []
  dishComments := [⟨"U", "anna"⟩]
  comments := []
  classMembers := []
  archivedTodos := []
  requestLogs := [(some "U", some "anna2")]
  activityLogs := []
  reminders := []
  archivedReminders := []
  users := [⟨"V", "anna"⟩]
  named := by simp
  uids := by simp
  names := by simp

/-- Her votes for a dish: an old one without a name, and a new one. -/
def twoVotes : DishRatings :=
  Table.ofList [(⟨"soup", "U"⟩, ⟨none, 2, none, 1⟩), (⟨"soup", "V"⟩, ⟨some "anna", 5, none, 2⟩)]

/-- The one name that is looked up for U is not an account's, so she has two votes. -/
theorem reconcile_two_votes : ∃ after, reconcileDishRatings renamed twoVotes = .ok after ∧
    IsUidOf renamed ⟨"V", "anna"⟩ "U" ∧ (after.lookup ⟨"soup", "U"⟩).isSome ∧ (after.lookup ⟨"soup", "V"⟩).isSome ∧
      ¬ Settled renamed ⟨"V", "anna"⟩ (Op.found renamed twoVotes ⟨"V", "anna"⟩ .reconcile) after := by
  obtain ⟨after, hok, hright⟩ := Op.apply_right (x := renamed) .reconcile twoVotes
  have huid : IsUidOf renamed ⟨"V", "anna"⟩ "U" := .inr (by decide +kernel)
  have hleft : (reconcileDishRatings renamed twoVotes).toOption.any (fun t =>
      (t.lookup ⟨"soup", "U"⟩).isSome && (t.lookup ⟨"soup", "V"⟩).isSome) = true := by decide +kernel
  rw [show reconcileDishRatings renamed twoVotes = .ok after from hok] at hleft ⊢
  obtain ⟨hold, hnew⟩ := Bool.and_eq_true_iff.mp hleft
  refine ⟨after, rfl, huid, hold, hnew, fun hsettled => ?_⟩
  obtain ⟨v, hv⟩ := Option.isSome_iff_exists.mp hold
  have hsame := hsettled.current _ _ hv huid
  simp at hsame

end Pokyh.Menu.Ratings

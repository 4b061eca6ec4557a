import Mathlib
import Pokyh.Lib.Runs
import Pokyh.Lib.Tables
import Pokyh.Menu.Ratings
import Pokyh.Menu.Source

/-!
# Menu — StableKeys

`migrateStableKeys` (`utils/dishKey.ts`): every dish gets a key made from its name, and the votes and comments under other ids of a
dish are moved to it.  Any set of the run's calls to the database may fail.  What a call does not change of a row, and the time of
its last change, is left out.
-/

namespace Pokyh.Menu.StableKeys
open Pokyh.Lib Ratings

structure DishName where
  nameDe : String
  stableKey : String
  deriving DecidableEq

structure Stored where
  dishes : Table String DishName
  /-- The stars. -/
  ratings : Table RatingKey ℕ
  /-- The dish of each comment. -/
  comments : Table String String

/-- The calls to the database.  A run makes each of them at most once. -/
inductive Call where
  | findDishes
  | keyDish (id : String)
  | findRatings
  | move (r : RatingKey)
  | find (r : RatingKey)
  | raise (r : RatingKey)
  | delete (r : RatingKey)
  | findComments
  | moveComment (id : String)
  deriving DecidableEq

/-- A run: what is stored, what has been counted, and whether a call has thrown. -/
structure Migration where
  stored : Stored
  dishes : ℕ
  ratings : ℕ
  comments : ℕ
  ratingConflicts : ℕ
  threw : Bool

variable (x : Platform) (fails : Call → Bool) (sourceMap : Table String String)

def DishName.key (d : DishName) : String := if d.stableKey ≠ "" then d.stableKey else slugifyDishName x d.nameDe

def idToKey (dishes : Table String DishName) (id : String) : Option String := (dishes.lookup id).map (DishName.key x)

def allKeys (dishes : Table String DishName) : List String := dishes.toList.map fun d => d.2.key x

def Migration.throws (m : Migration) : Migration := { m with threw := true }

def Migration.read (m : Migration) (call : Call) : Migration := if fails call then m.throws else m

def keyDish (m : Migration) (d : String × DishName) : Migration :=
  if m.threw || d.2.stableKey ≠ "" then m
  else if fails (.keyDish d.1) then m.throws
  else
    { m with
      stored.dishes := m.stored.dishes.adjust fun id v => if id = d.1 then { v with stableKey := d.2.key x } else v
      dishes := m.dishes + 1 }

/-- A vote gets another dish, unless the person has a vote for that one. -/
def moveRating (t : Table RatingKey ℕ) (r target : RatingKey) : Option (Table RatingKey ℕ) :=
  match t.lookup r with
  | none => none
  | some stars =>
      if target = r then some t
      else if (t.lookup target).isSome then none
      else some ((t.erase r).insert target stars)

def raiseRating (t : Table RatingKey ℕ) (r : RatingKey) (stars : ℕ) : Table RatingKey ℕ :=
  t.adjust fun k old => if k = r then stars else old

/-- A vote that could not be moved is taken for a second one of the person: the higher one is kept.  `lenient`: that it cannot be
deleted is ignored. -/
def mergeRating (lenient : Bool) (target : RatingKey) (m : Migration) (r : RatingKey × ℕ) : Migration :=
  let m := { m with ratingConflicts := m.ratingConflicts + 1 }
  if fails (.find r.1) then m.throws
  else
    let higher := (m.stored.ratings.lookup target).any (· < r.2)
    if higher && fails (.raise r.1) then m.throws
    else
      let raised := if higher then raiseRating m.stored.ratings target r.2 else m.stored.ratings
      if fails (.delete r.1) || (raised.lookup r.1).isNone then { m with stored.ratings := raised, threw := !lenient }
      else { m with stored.ratings := raised.erase r.1 }

def rewriteRating (lenient : Bool) (target : RatingKey) (m : Migration) (r : RatingKey × ℕ) : Migration :=
  match if fails (.move r.1) then none else moveRating m.stored.ratings r.1 target with
  | some ratings => { m with stored.ratings := ratings, ratings := m.ratings + 1 }
  | none => mergeRating fails lenient target m r

/-- One turn of a loop over votes; `keyFor` is the key for a dish's id. -/
def rewriteTurn (keyFor : String → Option String) (lenient : Bool) (m : Migration) (r : RatingKey × ℕ) : Migration :=
  if m.threw then m
  else
    match keyFor r.1.dishId with
    | none => m
    | some newKey => rewriteRating fails lenient ⟨newKey, r.1.stableUid⟩ m r

/-- The same of a loop over comments. -/
def commentTurn (keyFor : String → Option String) (m : Migration) (c : String × String) : Migration :=
  if m.threw then m
  else
    match keyFor c.2 with
    | none => m
    | some newKey =>
        if fails (.moveComment c.1) then m.throws
        else
          { m with
            stored.comments := m.stored.comments.adjust fun id dish => if id = c.1 then newKey else dish
            comments := m.comments + 1 }

/-- The key for the id of a stored dish that is not yet its key. -/
def dishKey (dishes : Table String DishName) (id : String) : Option String :=
  (idToKey x dishes id).filter fun newKey => newKey ≠ "" && newKey ≠ id

/-- The key for an id of the source. -/
def sourceKey (id : String) : Option String :=
  (((sourceMap.lookup id).filter (· ≠ "")).map (slugifyDishName x)).filter (· ≠ "")

/-- Neither an id of a stored dish nor a key. -/
def isOrphan (dishes : Table String DishName) (id : String) : Bool := (idToKey x dishes id).isNone && id ∉ allKeys x dishes

/-- The dishes have their keys, and the votes are read. -/
def keyDishes (s : Stored) : Migration :=
  (s.dishes.toList.foldl (keyDish x fails) ((Migration.mk s 0 0 0 0 false).read fails .findDishes)).read fails .findRatings

/-- The votes under ids of stored dishes are moved, and the comments are read. -/
def moveRatings (s : Stored) : Migration :=
  let m := keyDishes x fails s
  (m.stored.ratings.toList.foldl (rewriteTurn fails (dishKey x s.dishes) false) m).read fails .findComments

def moveComments (s : Stored) : Migration :=
  let m := moveRatings x fails s
  m.stored.comments.toList.foldl (commentTurn fails (dishKey x s.dishes)) m

def orphanRatings (s : Stored) : List (RatingKey × ℕ) :=
  (keyDishes x fails s).stored.ratings.toList.filter fun r => isOrphan x s.dishes r.1.dishId

def orphanComments (s : Stored) : List (String × String) :=
  (moveRatings x fails s).stored.comments.toList.filter fun c => isOrphan x s.dishes c.2

def migrateStableKeys (s : Stored) : Migration :=
  let m := moveComments x fails s
  if (orphanRatings x fails s ≠ [] ∨ orphanComments x fails s ≠ []) ∧ sourceMap.entries ≠ [] then
    let m := (orphanRatings x fails s).foldl (rewriteTurn fails (sourceKey x sourceMap) true) m
    (orphanComments x fails s).foldl (commentTurn fails (sourceKey x sourceMap)) m
  else m

/-! ### What should hold -/

/-- An id of the dish with a key: the key itself, an id of a stored dish, or one of the source. -/
def IsIdOf (s : Stored) (key id : String) : Prop :=
  id = key ∨ idToKey x s.dishes id = some key ∨ ∃ name, sourceMap.lookup id = some name ∧ name ≠ "" ∧ slugifyDishName x name = key

/-- The key of a stored dish or of one of the source. -/
def IsKey (s : Stored) (key : String) : Prop :=
  (∃ id, idToKey x s.dishes id = some key) ∨ ∃ id name, sourceMap.lookup id = some name ∧ name ≠ "" ∧ slugifyDishName x name = key

/-- No id is one of two dishes. -/
def Unambiguous (s : Stored) : Prop :=
  ∀ key key' id, IsKey x sourceMap s key → IsKey x sourceMap s key' → IsIdOf x sourceMap s key id → IsIdOf x sourceMap s key' id →
    key = key'

/-- The stars a person gave a dish, under any of its ids. -/
def starsOf (s : Stored) (t : Table RatingKey ℕ) (person key : String) : Set ℕ :=
  {n | ∃ id, IsIdOf x sourceMap s key id ∧ t.lookup ⟨id, person⟩ = some n}

/-- The highest vote of every person for every dish is still there. -/
def VotesKept (s s' : Stored) : Prop :=
  ∀ person key, IsKey x sourceMap s key → ∀ n, IsGreatest (starsOf x sourceMap s s.ratings person key) n →
    n ∈ starsOf x sourceMap s s'.ratings person key

/-- The ids are of the same dishes. -/
def OneDish (s : Stored) (id id' : String) : Prop :=
  ∀ key, IsKey x sourceMap s key → (IsIdOf x sourceMap s key id ↔ IsIdOf x sourceMap s key id')

def CommentsKept (s s' : Stored) : Prop :=
  ∀ id dish, s.comments.lookup id = some dish → ∃ dish', s'.comments.lookup id = some dish' ∧ OneDish x sourceMap s dish dish'

/-- Without failures, a second run changes nothing. -/
def RunsOnce (s : Stored) : Prop :=
  let done := (migrateStableKeys x (fun _ => false) sourceMap s).stored
  (migrateStableKeys x (fun _ => false) sourceMap done).stored = done

/-- At this turn a vote is lost: it cannot be moved though the person has no other one under the new key, is deleted as if there were
one, and was the highest one for the dish. -/
structure Loses (s : Stored) (keyFor : String → Option String) (m : Migration) (r : RatingKey × ℕ) : Prop where
  runs : m.threw = false
  moveFails : fails (.move r.1) = true
  found : fails (.find r.1) = false
  deleted : fails (.delete r.1) = false
  alone : ∃ newKey ∈ keyFor r.1.dishId, newKey = r.1.dishId ∨ m.stored.ratings.lookup ⟨newKey, r.1.stableUid⟩ = none
  highest : ∃ n ∈ m.stored.ratings.lookup r.1, ∀ id, OneDish x sourceMap s r.1.dishId id → id ≠ r.1.dishId →
    ∀ n' ∈ m.stored.ratings.lookup ⟨id, r.1.stableUid⟩, n' < n

/-- No turn of a loop over votes loses one. -/
def LosesNone (s : Stored) (keyFor : String → Option String) (lenient : Bool) (m : Migration) (ratings : List (RatingKey × ℕ)) : Prop :=
  ∀ before r rest, ratings = before ++ r :: rest →
    ¬Loses x fails sourceMap s keyFor (before.foldl (rewriteTurn fails keyFor lenient) m) r

variable {x : Platform} {fails : Call → Bool} {sourceMap : Table String String} {s : Stored} {keyFor : String → Option String}
  {id id' key key' person : String} {lenient : Bool} {m : Migration} {r : RatingKey × ℕ} {t t' : Table RatingKey ℕ}

/-! ### Ids of a dish -/

theorem OneDish.refl (id : String) : OneDish x sourceMap s id id := fun _ _ => Iff.rfl

theorem OneDish.symm (h : OneDish x sourceMap s id id') : OneDish x sourceMap s id' id := fun key hkey => (h key hkey).symm

theorem OneDish.trans {id'' : String} (h : OneDish x sourceMap s id id') (h' : OneDish x sourceMap s id' id'') :
    OneDish x sourceMap s id id'' := fun key hkey => (h key hkey).trans (h' key hkey)

/-- An id and its key are of one dish. -/
theorem Unambiguous.oneDish (hids : Unambiguous x sourceMap s) (hkey : IsKey x sourceMap s key) (hid : IsIdOf x sourceMap s key id) :
    OneDish x sourceMap s id key := by
  intro key' hkey'
  constructor
  · intro hid'
    obtain rfl := hids key key' id hkey hkey' hid hid'
    exact .inl rfl
  · intro hkeyId
    obtain rfl := hids key key' key hkey hkey' (.inl rfl) hkeyId
    exact hid

/-- What a loop moves ids to: the key of their dish, which stays. -/
structure Moves (x : Platform) (sourceMap : Table String String) (s : Stored) (keyFor : String → Option String) : Prop where
  isKey : ∀ id key, keyFor id = some key → IsKey x sourceMap s key
  isId : ∀ id key, keyFor id = some key → IsIdOf x sourceMap s key id

theorem moves_dishKey (x : Platform) (sourceMap : Table String String) (s : Stored) : Moves x sourceMap s (dishKey x s.dishes) where
  isKey := fun id _ h => .inl ⟨id, (Option.filter_eq_some_iff.mp h).1⟩
  isId := fun _ _ h => .inr (.inl (Option.filter_eq_some_iff.mp h).1)

theorem sourceKey_eq_some (h : sourceKey x sourceMap id = some key) :
    ∃ name, sourceMap.lookup id = some name ∧ name ≠ "" ∧ slugifyDishName x name = key := by
  obtain ⟨hkey, -⟩ := Option.filter_eq_some_iff.mp h
  obtain ⟨name, hname, hslug⟩ := Option.map_eq_some_iff.mp hkey
  obtain ⟨hlookup, hne⟩ := Option.filter_eq_some_iff.mp hname
  exact ⟨name, hlookup, by simpa using hne, hslug⟩

theorem moves_sourceKey (x : Platform) (sourceMap : Table String String) (s : Stored) : Moves x sourceMap s (sourceKey x sourceMap) where
  isKey := fun id _ h => .inr ⟨id, sourceKey_eq_some h⟩
  isId := fun _ _ h => .inr (.inr (sourceKey_eq_some h))

namespace Moves
variable (hmoves : Moves x sourceMap s keyFor) (hids : Unambiguous x sourceMap s)
include hmoves hids

theorem oneDish (h : keyFor id = some key) : OneDish x sourceMap s id key :=
  hids.oneDish (hmoves.isKey id key h) (hmoves.isId id key h)

/-- A key stays where it is. -/
theorem stays (hkey : IsKey x sourceMap s key) (h : keyFor key = some key') : key' = key :=
  hids key' key key (hmoves.isKey key key' h) hkey (hmoves.isId key key' h) (.inl rfl)

end Moves

/-! ### One turn over a vote -/

theorem lookup_raiseRating (t : Table RatingKey ℕ) (k k' : RatingKey) (stars : ℕ) :
    (raiseRating t k stars).lookup k' = (t.lookup k').map fun old => if k' = k then stars else old :=
  Table.lookup_adjust

/-- What a turn makes of the votes. -/
inductive Rewritten (fails : Call → Bool) (target : RatingKey) (r : RatingKey × ℕ) (t : Table RatingKey ℕ) : Table RatingKey ℕ → Prop where
  | kept : Rewritten fails target r t t
  | moved {n : ℕ} (hr : t.lookup r.1 = some n) (hne : target ≠ r.1) (hfree : t.lookup target = none) :
      Rewritten fails target r t ((t.erase r.1).insert target n)
  | raised {n : ℕ} (htarget : t.lookup target = some n) (hlow : n < r.2) : Rewritten fails target r t (raiseRating t target r.2)
  | merged {n : ℕ} (htarget : t.lookup target = some n) (hlow : n < r.2) :
      Rewritten fails target r t ((raiseRating t target r.2).erase r.1)
  | dropped (hhigh : ∀ n, t.lookup target = some n → r.2 ≤ n) (hmove : fails (.move r.1) = true ∨ moveRating t r.1 target = none)
      (hfind : fails (.find r.1) = false) (hdelete : fails (.delete r.1) = false) : Rewritten fails target r t (t.erase r.1)

theorem moveRating_eq_some {target k : RatingKey} (h : moveRating t k target = some t') :
    t' = t ∨ ∃ n, t.lookup k = some n ∧ target ≠ k ∧ t.lookup target = none ∧ t' = (t.erase k).insert target n := by
  unfold moveRating at h
  cases hk : t.lookup k with
  | none => simp [hk] at h
  | some n =>
    simp only [hk] at h
    split at h
    · exact .inl (Option.some.inj h).symm
    · rename_i hne
      split at h
      · cases h
      · rename_i hfree
        exact .inr ⟨n, rfl, hne, by simpa using hfree, (Option.some.inj h).symm⟩

theorem mergeRating_spec (lenient : Bool) (target : RatingKey) (m : Migration) (r : RatingKey × ℕ)
    (hmove : fails (.move r.1) = true ∨ moveRating m.stored.ratings r.1 target = none) :
    let m' := mergeRating fails lenient target m r
    m'.stored.dishes = m.stored.dishes ∧ m'.stored.comments = m.stored.comments ∧
      Rewritten fails target r m.stored.ratings m'.stored.ratings := by
  simp only [mergeRating]
  split
  · exact ⟨rfl, rfl, .kept⟩
  · rename_i hfind
    split
    · exact ⟨rfl, rfl, .kept⟩
    · cases hhigher : (m.stored.ratings.lookup target).any (· < r.2) with
      | true =>
        obtain ⟨n, htarget, hlow⟩ : ∃ n, m.stored.ratings.lookup target = some n ∧ n < r.2 := by
          simpa [Option.any_eq_true] using hhigher
        simp only [if_true]
        split
        · exact ⟨rfl, rfl, .raised htarget hlow⟩
        · exact ⟨rfl, rfl, .merged htarget hlow⟩
      | false =>
        have hhigh : ∀ n, m.stored.ratings.lookup target = some n → r.2 ≤ n := by
          intro n hn
          simpa [hn] using hhigher
        simp only [Bool.false_eq_true, if_false]
        split
        · exact ⟨rfl, rfl, .kept⟩
        · rename_i hdelete
          simp only [Bool.or_eq_true, not_or, Bool.not_eq_true] at hdelete
          exact ⟨rfl, rfl, .dropped hhigh hmove (by simpa using hfind) hdelete.1⟩

theorem rewriteRating_spec (fails : Call → Bool) (lenient : Bool) (target : RatingKey) (m : Migration) (r : RatingKey × ℕ) :
    let m' := rewriteRating fails lenient target m r
    m'.stored.dishes = m.stored.dishes ∧ m'.stored.comments = m.stored.comments ∧
      Rewritten fails target r m.stored.ratings m'.stored.ratings := by
  simp only [rewriteRating]
  cases hmove : if fails (.move r.1) then none else moveRating m.stored.ratings r.1 target with
  | some ratings =>
    split at hmove
    · cases hmove
    · rcases moveRating_eq_some hmove with heq | ⟨n, hr, hne, hfree, rfl⟩
      · exact ⟨rfl, rfl, heq ▸ .kept⟩
      · exact ⟨rfl, rfl, .moved hr hne hfree⟩
  | none =>
    refine mergeRating_spec lenient target m r ?_
    split at hmove
    · exact .inl ‹_›
    · exact .inr hmove

/-- A turn leaves all but the votes. -/
theorem rewriteTurn_rest (fails : Call → Bool) (keyFor : String → Option String) (lenient : Bool) (m : Migration) (r : RatingKey × ℕ) :
    (rewriteTurn fails keyFor lenient m r).stored.dishes = m.stored.dishes ∧
      (rewriteTurn fails keyFor lenient m r).stored.comments = m.stored.comments := by
  unfold rewriteTurn
  split
  · exact ⟨rfl, rfl⟩
  · split
    · exact ⟨rfl, rfl⟩
    · obtain ⟨hdishes, hcomments, -⟩ := rewriteRating_spec fails lenient ⟨_, r.1.stableUid⟩ m r
      exact ⟨hdishes, hcomments⟩

/-- Either a turn leaves the votes, or there is a new key for the vote's dish. -/
theorem rewriteTurn_spec (fails : Call → Bool) (keyFor : String → Option String) (lenient : Bool) (m : Migration) (r : RatingKey × ℕ) :
    (rewriteTurn fails keyFor lenient m r).stored.ratings = m.stored.ratings ∨
      ∃ newKey, keyFor r.1.dishId = some newKey ∧ m.threw = false ∧ Rewritten fails ⟨newKey, r.1.stableUid⟩ r m.stored.ratings
        (rewriteTurn fails keyFor lenient m r).stored.ratings := by
  unfold rewriteTurn
  split
  · exact .inl rfl
  · rename_i hruns
    cases hkey : keyFor r.1.dishId with
    | none => exact .inl rfl
    | some newKey => exact .inr ⟨newKey, rfl, by simpa using hruns, (rewriteRating_spec fails lenient _ m r).2.2⟩

/-- A turn touches no other vote than the one it moves and the one under the new key. -/
theorem Rewritten.frame {target k : RatingKey} (h : Rewritten fails target r t t') (hr : k ≠ r.1) (htarget : k ≠ target) :
    t'.lookup k = t.lookup k := by
  cases h with
  | kept => rfl
  | moved _ _ _ => rw [Table.lookup_insert_of, if_neg htarget, Table.lookup_erase_of, if_neg hr]
  | raised _ _ => simp [lookup_raiseRating, htarget]
  | merged _ _ => simp [hr, lookup_raiseRating, htarget]
  | dropped _ _ _ _ => rw [Table.lookup_erase_of, if_neg hr]

/-! ### Votes are kept -/

/-- Every vote has one at least as high for the same dish. -/
def Covers (x : Platform) (sourceMap : Table String String) (s : Stored) (t t' : Table RatingKey ℕ) : Prop :=
  ∀ person key, IsKey x sourceMap s key → ∀ n ∈ starsOf x sourceMap s t person key, ∃ n' ∈ starsOf x sourceMap s t' person key, n ≤ n'

theorem Covers.refl (t : Table RatingKey ℕ) : Covers x sourceMap s t t := fun _ _ _ n hn => ⟨n, hn, le_rfl⟩

theorem Covers.trans {t'' : Table RatingKey ℕ} (h : Covers x sourceMap s t t') (h' : Covers x sourceMap s t' t'') :
    Covers x sourceMap s t t'' := by
  intro person key hkey n hn
  obtain ⟨n', hn', hle⟩ := h person key hkey n hn
  obtain ⟨n'', hn'', hle'⟩ := h' person key hkey n' hn'
  exact ⟨n'', hn'', hle.trans hle'⟩

theorem covers_of (h : ∀ k n, t.lookup k = some n →
    ∃ id' n', OneDish x sourceMap s k.dishId id' ∧ t'.lookup ⟨id', k.stableUid⟩ = some n' ∧ n ≤ n') : Covers x sourceMap s t t' := by
  rintro person key hkey n ⟨id, hid, hn⟩
  obtain ⟨id', n', hone, hn', hle⟩ := h ⟨id, person⟩ n hn
  exact ⟨n', ⟨id', (hone key hkey).mp hid, hn'⟩, hle⟩

theorem starsOf_finite (t : Table RatingKey ℕ) (person key : String) : (starsOf x sourceMap s t person key).Finite := by
  refine (List.finite_toSet (t.toList.map Prod.snd)).subset ?_
  rintro n ⟨id, -, hn⟩
  exact List.mem_map.mpr ⟨(⟨id, person⟩, n), Table.mem_toList.mpr hn, rfl⟩

/-- Where no vote is higher than before, the highest ones are kept when every one has its like. -/
theorem votesKept_iff {s' : Stored} (hdown : Covers x sourceMap s s'.ratings s.ratings) :
    VotesKept x sourceMap s s' ↔ Covers x sourceMap s s.ratings s'.ratings := by
  constructor
  · intro h person key hkey n hn
    obtain ⟨top, htop, hhighest⟩ := Set.exists_max_image _ id (starsOf_finite s.ratings person key) ⟨n, hn⟩
    exact ⟨top, h person key hkey top ⟨htop, fun n' hn' => hhighest n' hn'⟩, hhighest n hn⟩
  · intro h person key hkey n hn
    obtain ⟨n', hn', hle⟩ := h person key hkey n hn.1
    obtain ⟨n'', hn'', hle'⟩ := hdown person key hkey n' hn'
    have hge : n'' ≤ n := hn.2 hn''
    obtain rfl : n = n' := by omega
    exact hn'

/-- The vote of a turn is still there, and unchanged unless it is under its key already. -/
def Present (keyFor : String → Option String) (t : Table RatingKey ℕ) (r : RatingKey × ℕ) : Prop :=
  ∀ newKey, keyFor r.1.dishId = some newKey → ∃ n, t.lookup r.1 = some n ∧ r.2 ≤ n ∧ (newKey ≠ r.1.dishId → n = r.2)

/-- A turn leaves no vote higher than the highest before. -/
theorem Rewritten.down {target : RatingKey} (h : Rewritten fails target r t t') (huid : target.stableUid = r.1.stableUid)
    (hone : OneDish x sourceMap s r.1.dishId target.dishId) {n : ℕ} (hn : t.lookup r.1 = some n) (hle : r.2 ≤ n) :
    Covers x sourceMap s t' t := by
  have hraised : ∀ k n', (raiseRating t target r.2).lookup k = some n' →
      ∃ id' m, OneDish x sourceMap s k.dishId id' ∧ t.lookup ⟨id', k.stableUid⟩ = some m ∧ n' ≤ m := by
    intro k n' hn'
    rw [lookup_raiseRating] at hn'
    obtain ⟨old, hold, heq⟩ := Option.map_eq_some_iff.mp hn'
    split at heq
    · rename_i htarget
      refine ⟨r.1.dishId, n, by rw [htarget]; exact hone.symm, by rw [htarget, huid]; exact hn, by omega⟩
    · exact ⟨k.dishId, old, .refl _, hold, heq.ge⟩
  cases h with
  | kept => exact .refl t
  | @moved old hold hne hfree =>
    refine covers_of fun k n' hn' => ?_
    rw [Table.lookup_insert_of] at hn'
    split at hn'
    · rename_i htarget
      refine ⟨r.1.dishId, old, by rw [htarget]; exact hone.symm, by rw [htarget, huid]; exact hold, (Option.some.inj hn').ge⟩
    · rw [Table.lookup_erase_of] at hn'
      split at hn'
      · cases hn'
      · exact ⟨k.dishId, n', .refl _, hn', le_rfl⟩
  | raised _ _ => exact covers_of hraised
  | merged _ _ =>
    refine covers_of fun k n' hn' => ?_
    rw [Table.lookup_erase_of] at hn'
    split at hn'
    · cases hn'
    · exact hraised k n' hn'
  | dropped _ _ _ _ =>
    refine covers_of fun k n' hn' => ?_
    rw [Table.lookup_erase_of] at hn'
    split at hn'
    · cases hn'
    · exact ⟨k.dishId, n', .refl _, hn', le_rfl⟩

/-- Unless a turn loses a vote, none is without its like. -/
theorem Rewritten.up {newKey : String} (h : Rewritten fails ⟨newKey, r.1.stableUid⟩ r m.stored.ratings t')
    (hone : OneDish x sourceMap s r.1.dishId newKey) (hkey : keyFor r.1.dishId = some newKey) {n : ℕ}
    (hn : m.stored.ratings.lookup r.1 = some n) (hle : r.2 ≤ n) (hsame : newKey ≠ r.1.dishId → n = r.2) (hruns : m.threw = false)
    (hkeeps : ¬Loses x fails sourceMap s keyFor m r) : Covers x sourceMap s m.stored.ratings t' := by
  have htargetEq : newKey = r.1.dishId → (⟨newKey, r.1.stableUid⟩ : RatingKey) = r.1 := fun heq => by rw [heq]
  have hne : (⟨newKey, r.1.stableUid⟩ : RatingKey) ≠ r.1 → newKey ≠ r.1.dishId := mt htargetEq
  have hraised : ∀ low, m.stored.ratings.lookup ⟨newKey, r.1.stableUid⟩ = some low → low < r.2 →
      ∀ k n', m.stored.ratings.lookup k = some n' →
        ∃ n'', (raiseRating m.stored.ratings ⟨newKey, r.1.stableUid⟩ r.2).lookup k = some n'' ∧ n' ≤ n'' := by
    intro low hlow hlt k n' hn'
    rw [lookup_raiseRating, hn', Option.map_some]
    split
    · rename_i heq
      rw [heq, hlow] at hn'
      obtain rfl := Option.some.inj hn'
      exact ⟨r.2, rfl, hlt.le⟩
    · exact ⟨n', rfl, le_rfl⟩
  cases h with
  | kept => exact .refl _
  | @moved old hold hnotSame hfree =>
    refine covers_of fun k n' hn' => ?_
    by_cases hk : k = r.1
    · obtain rfl : n' = old := Option.some.inj (hn'.symm.trans (by rw [hk, hold]))
      rw [hk]
      exact ⟨newKey, n', hone, by rw [Table.lookup_insert_of, if_pos rfl], le_rfl⟩
    · refine ⟨k.dishId, n', .refl _, ?_, le_rfl⟩
      rw [Table.lookup_insert_of, if_neg, Table.lookup_erase_of, if_neg hk]
      · exact hn'
      · intro heq
        have heq : k = ⟨newKey, r.1.stableUid⟩ := heq
        rw [heq, hfree] at hn'
        cases hn'
  | @raised low hlow hlt =>
    refine covers_of fun k n' hn' => ?_
    obtain ⟨n'', hn'', hle'⟩ := hraised low hlow hlt k n' hn'
    exact ⟨k.dishId, n'', .refl _, hn'', hle'⟩
  | @merged low hlow hlt =>
    have hnotSame : (⟨newKey, r.1.stableUid⟩ : RatingKey) ≠ r.1 := by
      intro heq
      rw [heq, hn] at hlow
      obtain rfl := Option.some.inj hlow
      omega
    refine covers_of fun k n' hn' => ?_
    by_cases hk : k = r.1
    · rw [hk] at hn' ⊢
      obtain rfl := Option.some.inj (hn.symm.trans hn')
      refine ⟨newKey, r.2, hone, ?_, (hsame (hne hnotSame)).le⟩
      rw [Table.lookup_erase_of, if_neg hnotSame, lookup_raiseRating, hlow]
      simp
    · obtain ⟨n'', hn'', hle'⟩ := hraised low hlow hlt k n' hn'
      exact ⟨k.dishId, n'', .refl _, by rw [Table.lookup_erase_of, if_neg hk, hn''], hle'⟩
  | dropped hhigh hmove hfind hdelete =>
    refine covers_of fun k n' hn' => ?_
    by_cases hk : k = r.1
    · rw [hk] at hn' ⊢
      obtain rfl := Option.some.inj (hn.symm.trans hn')
      by_cases halone : newKey = r.1.dishId ∨ m.stored.ratings.lookup ⟨newKey, r.1.stableUid⟩ = none
      · -- Nobody took the vote's place, so it was not the highest.
        have hfails : fails (.move r.1) = true := by
          refine hmove.resolve_right fun hnone => ?_
          rcases halone with heq | hfree
          · simp [moveRating, hn, htargetEq heq] at hnone
          · by_cases heq : (⟨newKey, r.1.stableUid⟩ : RatingKey) = r.1
            · simp [moveRating, hn, heq] at hnone
            · simp [moveRating, hn, heq, hfree] at hnone
        have hnot : ¬∀ id, OneDish x sourceMap s r.1.dishId id → id ≠ r.1.dishId →
            ∀ n'' ∈ m.stored.ratings.lookup ⟨id, r.1.stableUid⟩, n'' < n :=
          fun hhighest => hkeeps ⟨hruns, hfails, hfind, hdelete, ⟨newKey, hkey, halone⟩, n, hn, hhighest⟩
        push Not at hnot
        obtain ⟨id, hid, hother, n'', hn'', hge⟩ := hnot
        refine ⟨id, n'', hid, ?_, hge⟩
        rw [Table.lookup_erase_of, if_neg, hn'']
        exact fun heq => hother (congrArg RatingKey.dishId heq)
      · push Not at halone
        obtain ⟨hother, htaken⟩ := halone
        obtain ⟨high, hhighest⟩ := Option.ne_none_iff_exists'.mp htaken
        refine ⟨newKey, high, hone, ?_, ?_⟩
        · rw [Table.lookup_erase_of, if_neg, hhighest]
          exact fun heq => hother (congrArg RatingKey.dishId heq)
        · rw [hsame hother]
          exact hhigh high hhighest
    · exact ⟨k.dishId, n', .refl _, by rw [Table.lookup_erase_of, if_neg hk, hn'], le_rfl⟩

/-- A turn that loses a vote deletes it. -/
theorem Loses.turn_eq (hloses : Loses x fails sourceMap s keyFor m r) (hpresent : Present keyFor m.stored.ratings r) :
    (rewriteTurn fails keyFor lenient m r).stored.ratings = m.stored.ratings.erase r.1 := by
  obtain ⟨newKey, hkey, halone⟩ := hloses.alone
  have hkey : keyFor r.1.dishId = some newKey := hkey
  obtain ⟨n, hn, hle, -⟩ := hpresent newKey hkey
  have hhigher : (m.stored.ratings.lookup ⟨newKey, r.1.stableUid⟩).any (· < r.2) = false := by
    rcases halone with heq | hfree
    · have hself : (⟨newKey, r.1.stableUid⟩ : RatingKey) = r.1 := by rw [heq]
      rw [hself, hn]
      simpa using hle
    · simp [hfree]
  simp [rewriteTurn, hloses.runs, hkey, rewriteRating, hloses.moveFails, mergeRating, hloses.found, hhigher, hloses.deleted, hn]

/-- Without its vote, the person's highest one for the dish is missing. -/
theorem Loses.not_covers (hloses : Loses x fails sourceMap s keyFor m r) (hmoves : Moves x sourceMap s keyFor)
    (hids : Unambiguous x sourceMap s) : ¬Covers x sourceMap s m.stored.ratings (m.stored.ratings.erase r.1) := by
  intro hcovers
  obtain ⟨newKey, hkey, -⟩ := hloses.alone
  obtain ⟨n, hn, hhighest⟩ := hloses.highest
  have hisKey := hmoves.isKey _ _ hkey
  have hisId := hmoves.isId _ _ hkey
  obtain ⟨n', ⟨id, hid, hn'⟩, hle⟩ := hcovers r.1.stableUid newKey hisKey n ⟨r.1.dishId, hisId, hn⟩
  rw [Table.lookup_erase_of] at hn'
  split at hn'
  · cases hn'
  · rename_i hother
    have hone := (hids.oneDish hisKey hisId).trans (hids.oneDish hisKey hid).symm
    have hlt := hhighest id hone (fun heq => hother (by rw [heq])) n' hn'
    omega

/-- A turn keeps the votes exactly when it loses none, and leaves none higher. -/
theorem turn_covers (hmoves : Moves x sourceMap s keyFor) (hids : Unambiguous x sourceMap s) (lenient : Bool)
    (hpresent : Present keyFor m.stored.ratings r) :
    let t' := (rewriteTurn fails keyFor lenient m r).stored.ratings
    Covers x sourceMap s t' m.stored.ratings ∧
      (Covers x sourceMap s m.stored.ratings t' ↔ ¬Loses x fails sourceMap s keyFor m r) := by
  have hlost : Loses x fails sourceMap s keyFor m r →
      ¬Covers x sourceMap s m.stored.ratings (rewriteTurn fails keyFor lenient m r).stored.ratings := by
    intro hloses
    rw [hloses.turn_eq hpresent]
    exact hloses.not_covers hmoves hids
  rcases rewriteTurn_spec fails keyFor lenient m r with heq | ⟨newKey, hkey, hruns, hrewritten⟩
  · simp only [heq] at hlost ⊢
    exact ⟨.refl _, fun _ h => hlost h (.refl _), fun _ => .refl _⟩
  · obtain ⟨n, hn, hle, hsame⟩ := hpresent newKey hkey
    have hone := hmoves.oneDish hids hkey
    exact ⟨hrewritten.down rfl hone hn hle, fun hcovers h => hlost h hcovers, hrewritten.up hone hkey hn hle hsame hruns⟩

/-! ### A loop over votes -/

/-- A turn leaves the votes of the other turns present. -/
theorem Rewritten.present {a : RatingKey × ℕ} {newKey : String} (h : Rewritten fails ⟨newKey, a.1.stableUid⟩ a t t')
    (hsettled : ∀ key, keyFor newKey = some key → key = newKey) (hne : r.1 ≠ a.1) (hr : Present keyFor t r) : Present keyFor t' r := by
  intro key hkey
  obtain ⟨n, hn, hle, hsame⟩ := hr key hkey
  by_cases htarget : r.1 = ⟨newKey, a.1.stableUid⟩
  · -- The vote is the one under the new key: that one stays, and can only rise.
    have hdish : r.1.dishId = newKey := congrArg RatingKey.dishId htarget
    have hstays : key = r.1.dishId := by
      rw [hdish] at hkey ⊢
      exact hsettled key hkey
    have hraised : ∀ low, t.lookup ⟨newKey, a.1.stableUid⟩ = some low → low < a.2 →
        (raiseRating t ⟨newKey, a.1.stableUid⟩ a.2).lookup r.1 = some a.2 ∧ r.2 ≤ a.2 := by
      intro low hlow hlt
      rw [← htarget, hn] at hlow
      obtain rfl := Option.some.inj hlow
      refine ⟨?_, by omega⟩
      rw [lookup_raiseRating, hn, ← htarget]
      simp
    cases h with
    | kept => exact ⟨n, hn, hle, hsame⟩
    | moved _ _ hfree =>
      rw [← htarget, hn] at hfree
      cases hfree
    | raised hlow hlt =>
      obtain ⟨hlookup, hle'⟩ := hraised _ hlow hlt
      exact ⟨a.2, hlookup, hle', fun hmoved => absurd hstays hmoved⟩
    | merged hlow hlt =>
      obtain ⟨hlookup, hle'⟩ := hraised _ hlow hlt
      refine ⟨a.2, ?_, hle', fun hmoved => absurd hstays hmoved⟩
      rw [Table.lookup_erase_of, if_neg hne, hlookup]
    | dropped _ _ _ _ => exact ⟨n, by rw [Table.lookup_erase_of, if_neg hne, hn], hle, hsame⟩
  · exact ⟨n, by rw [h.frame hne htarget, hn], hle, hsame⟩

theorem turn_present {a : RatingKey × ℕ} (hmoves : Moves x sourceMap s keyFor) (hids : Unambiguous x sourceMap s) (lenient : Bool)
    (hne : r.1 ≠ a.1) (hr : Present keyFor m.stored.ratings r) : Present keyFor (rewriteTurn fails keyFor lenient m a).stored.ratings r := by
  rcases rewriteTurn_spec fails keyFor lenient m a with heq | ⟨newKey, hkey, -, hrewritten⟩
  · rwa [heq]
  · exact hrewritten.present (fun _ hkey' => hmoves.stays hids (hmoves.isKey _ _ hkey) hkey') hne hr

/-- The votes that a loop still comes to are as they were read. -/
theorem loop_present (fails : Call → Bool) (hmoves : Moves x sourceMap s keyFor) (hids : Unambiguous x sourceMap s) (lenient : Bool)
    {ratings before rest : List (RatingKey × ℕ)} (hnodup : (ratings.map Prod.fst).Nodup)
    (hstart : ∀ r ∈ ratings, Present keyFor m.stored.ratings r) (hsplit : ratings = before ++ rest) :
    ∀ r ∈ rest, Present keyFor (before.foldl (rewriteTurn fails keyFor lenient) m).stored.ratings r := by
  intro r hr
  subst hsplit
  refine foldl_invariant (P := fun m' : Migration => Present keyFor m'.stored.ratings r)
    (fun m' a ha h => turn_present hmoves hids lenient ?_ h) (hstart r (List.mem_append_right _ hr))
  rw [List.map_append, List.nodup_append] at hnodup
  exact fun heq => hnodup.2.2 a.1 (List.mem_map_of_mem ha) r.1 (List.mem_map_of_mem hr) heq.symm

/-- A loop keeps the votes exactly when no turn loses one, and leaves none higher. -/
theorem loop_covers (fails : Call → Bool) (hmoves : Moves x sourceMap s keyFor) (hids : Unambiguous x sourceMap s) (lenient : Bool)
    {ratings : List (RatingKey × ℕ)} (hnodup : (ratings.map Prod.fst).Nodup)
    (hstart : ∀ r ∈ ratings, Present keyFor m.stored.ratings r) :
    let t' := (ratings.foldl (rewriteTurn fails keyFor lenient) m).stored.ratings
    Covers x sourceMap s t' m.stored.ratings ∧
      (Covers x sourceMap s m.stored.ratings t' ↔ LosesNone x fails sourceMap s keyFor lenient m ratings) := by
  have hturn : ∀ before r rest, ratings = before ++ r :: rest →
      Present keyFor (before.foldl (rewriteTurn fails keyFor lenient) m).stored.ratings r := fun before r rest hsplit =>
    loop_present fails hmoves hids lenient hnodup hstart hsplit r List.mem_cons_self
  constructor
  · refine foldl_splits (P := fun _ (m' : Migration) => Covers x sourceMap s m'.stored.ratings m.stored.ratings) (.refl _) ?_
    intro before r rest hsplit h
    exact (turn_covers hmoves hids lenient (hturn before r rest hsplit)).1.trans h
  · have hreturns := foldl_returns_iff (f := rewriteTurn fails keyFor lenient) (s := m) (l := ratings)
      (R := fun m m' => Covers x sourceMap s m.stored.ratings m'.stored.ratings) (fun _ => .refl _) (fun _ _ _ => .trans)
      fun before r rest hsplit => (turn_covers hmoves hids lenient (hturn before r rest hsplit)).1
    rw [hreturns, LosesNone]
    refine forall_congr' fun before => forall_congr' fun r => forall_congr' fun rest => forall_congr' fun hsplit => ?_
    exact (turn_covers hmoves hids lenient (hturn before r rest hsplit)).2

/-- A loop leaves the votes for dishes that it neither moves nor moves to. -/
theorem loop_frame {k : RatingKey} {ratings : List (RatingKey × ℕ)} (hstays : keyFor k.dishId = none)
    (hnoKey : ∀ id, keyFor id ≠ some k.dishId) :
    (ratings.foldl (rewriteTurn fails keyFor lenient) m).stored.ratings.lookup k = m.stored.ratings.lookup k := by
  refine foldl_invariant (P := fun m' : Migration => m'.stored.ratings.lookup k = m.stored.ratings.lookup k) (fun m' a _ h => ?_) rfl
  rcases rewriteTurn_spec fails keyFor lenient m' a with heq | ⟨newKey, hkey, -, hrewritten⟩
  · rw [heq, h]
  · rw [hrewritten.frame, h]
    · rintro rfl
      rw [hstays] at hkey
      cases hkey
    · rintro rfl
      exact hnoKey _ hkey

theorem loop_rest (fails : Call → Bool) (keyFor : String → Option String) (lenient : Bool) (m : Migration) (ratings : List (RatingKey × ℕ)) :
    (ratings.foldl (rewriteTurn fails keyFor lenient) m).stored.dishes = m.stored.dishes ∧
      (ratings.foldl (rewriteTurn fails keyFor lenient) m).stored.comments = m.stored.comments := by
  refine foldl_invariant (P := fun m' : Migration => m'.stored.dishes = m.stored.dishes ∧ m'.stored.comments = m.stored.comments)
    (fun m' a _ h => ?_) ⟨rfl, rfl⟩
  obtain ⟨hdishes, hcomments⟩ := rewriteTurn_rest fails keyFor lenient m' a
  exact ⟨hdishes.trans h.1, hcomments.trans h.2⟩

/-! ### The other loops -/

/-- A turn over a comment changes at most its dish. -/
theorem commentTurn_spec (fails : Call → Bool) (keyFor : String → Option String) (m : Migration) (c : String × String) :
    let m' := commentTurn fails keyFor m c
    m'.stored.dishes = m.stored.dishes ∧ m'.stored.ratings = m.stored.ratings ∧
      (m'.stored.comments = m.stored.comments ∨ ∃ newKey, keyFor c.2 = some newKey ∧
        m'.stored.comments = m.stored.comments.adjust fun id dish => if id = c.1 then newKey else dish) := by
  simp only [commentTurn]
  split
  · exact ⟨rfl, rfl, .inl rfl⟩
  · cases hkey : keyFor c.2 with
    | none => exact ⟨rfl, rfl, .inl rfl⟩
    | some newKey =>
      simp only
      split
      · exact ⟨rfl, rfl, .inl rfl⟩
      · exact ⟨rfl, rfl, .inr ⟨newKey, rfl, rfl⟩⟩

theorem commentLoop_rest (fails : Call → Bool) (keyFor : String → Option String) (m : Migration) (comments : List (String × String)) :
    (comments.foldl (commentTurn fails keyFor) m).stored.dishes = m.stored.dishes ∧
      (comments.foldl (commentTurn fails keyFor) m).stored.ratings = m.stored.ratings := by
  refine foldl_invariant (P := fun m' : Migration => m'.stored.dishes = m.stored.dishes ∧ m'.stored.ratings = m.stored.ratings)
    (fun m' c _ h => ?_) ⟨rfl, rfl⟩
  obtain ⟨hdishes, hratings, -⟩ := commentTurn_spec fails keyFor m' c
  exact ⟨hdishes.trans h.1, hratings.trans h.2⟩

theorem keyDish_spec (fails : Call → Bool) (m : Migration) (d : String × DishName) :
    let m' := keyDish x fails m d
    m'.stored.ratings = m.stored.ratings ∧ m'.stored.comments = m.stored.comments ∧
      (m'.stored.dishes = m.stored.dishes ∨ d.2.stableKey = "" ∧
        m'.stored.dishes = m.stored.dishes.adjust fun id v => if id = d.1 then { v with stableKey := d.2.key x } else v) := by
  simp only [keyDish]
  split
  · exact ⟨rfl, rfl, .inl rfl⟩
  · rename_i hunkeyed
    split
    · exact ⟨rfl, rfl, .inl rfl⟩
    · exact ⟨rfl, rfl, .inr ⟨by simp_all, rfl⟩⟩

@[simp] theorem read_stored (m : Migration) (fails : Call → Bool) (call : Call) : (m.read fails call).stored = m.stored := by
  unfold Migration.read
  split <;> rfl

theorem keyLoop_rest (m : Migration) (dishes : List (String × DishName)) :
    (dishes.foldl (keyDish x fails) m).stored.ratings = m.stored.ratings ∧
      (dishes.foldl (keyDish x fails) m).stored.comments = m.stored.comments := by
  refine foldl_invariant (P := fun m' : Migration => m'.stored.ratings = m.stored.ratings ∧ m'.stored.comments = m.stored.comments)
    (fun m' d _ h => ?_) ⟨rfl, rfl⟩
  obtain ⟨hratings, hcomments, -⟩ := keyDish_spec (x := x) fails m' d
  exact ⟨hratings.trans h.1, hcomments.trans h.2⟩

/-! ### The stages of a run -/

theorem keyDishes_ratings : (keyDishes x fails s).stored.ratings = s.ratings := by
  rw [keyDishes, read_stored, (keyLoop_rest _ _).1, read_stored]

theorem keyDishes_comments : (keyDishes x fails s).stored.comments = s.comments := by
  rw [keyDishes, read_stored, (keyLoop_rest _ _).2, read_stored]

theorem moveRatings_ratings : (moveRatings x fails s).stored.ratings =
    (s.ratings.toList.foldl (rewriteTurn fails (dishKey x s.dishes) false) (keyDishes x fails s)).stored.ratings := by
  rw [moveRatings, read_stored, keyDishes_ratings]

theorem moveRatings_comments (fails : Call → Bool) : (moveRatings x fails s).stored.comments = s.comments := by
  rw [moveRatings, read_stored, (loop_rest _ _ _ _ _).2, keyDishes_comments]

theorem moveComments_ratings : (moveComments x fails s).stored.ratings = (moveRatings x fails s).stored.ratings := by
  rw [moveComments, (commentLoop_rest _ _ _ _).2]

/-- Where nothing can be recovered, the loops would do nothing either. -/
theorem migrateStableKeys_eq : migrateStableKeys x fails sourceMap s =
    (orphanComments x fails s).foldl (commentTurn fails (sourceKey x sourceMap))
      ((orphanRatings x fails s).foldl (rewriteTurn fails (sourceKey x sourceMap) true) (moveComments x fails s)) := by
  unfold migrateStableKeys
  split
  · rfl
  · rename_i hnone
    by_cases hsource : sourceMap.entries = []
    · have hlookup : ∀ id, sourceKey x sourceMap id = none := by
        intro id
        have hempty : sourceMap = ∅ := AList.ext hsource
        simp [sourceKey, hempty]
      have hratings : ∀ m r, rewriteTurn fails (sourceKey x sourceMap) true m r = m := fun m r => by simp [rewriteTurn, hlookup]
      have hcomments : ∀ m c, commentTurn fails (sourceKey x sourceMap) m c = m := fun m c => by simp [commentTurn, hlookup]
      have hratingLoop := foldl_invariant (f := rewriteTurn fails (sourceKey x sourceMap) true) (l := orphanRatings x fails s)
        (P := (· = moveComments x fails s)) (fun m r _ h => by rw [hratings, h]) rfl
      rw [hratingLoop]
      exact (foldl_invariant (f := commentTurn fails (sourceKey x sourceMap)) (P := (· = moveComments x fails s))
        (fun m c _ h => by rw [hcomments, h]) rfl).symm
    · have hempty : orphanRatings x fails s = [] ∧ orphanComments x fails s = [] := by
        by_contra hsome
        exact hnone ⟨by tauto, hsource⟩
      rw [hempty.1, hempty.2]
      rfl

theorem migrate_ratings : (migrateStableKeys x fails sourceMap s).stored.ratings =
    ((orphanRatings x fails s).foldl (rewriteTurn fails (sourceKey x sourceMap) true) (moveComments x fails s)).stored.ratings := by
  rw [migrateStableKeys_eq, (commentLoop_rest _ _ _ _).2]

theorem mem_orphanRatings (h : r ∈ orphanRatings x fails s) : s.ratings.lookup r.1 = some r.2 ∧ isOrphan x s.dishes r.1.dishId = true := by
  obtain ⟨hmem, horphan⟩ := List.mem_filter.mp h
  rw [keyDishes_ratings] at hmem
  exact ⟨Table.mem_toList.mp hmem, horphan⟩

/-- The loop over the ids of stored dishes has nothing to do with an orphan. -/
theorem dishKey_orphan (h : isOrphan x s.dishes id = true) : dishKey x s.dishes id = none ∧ ∀ id', dishKey x s.dishes id' ≠ some id := by
  obtain ⟨hnone, hnoKey⟩ : idToKey x s.dishes id = none ∧ id ∉ allKeys x s.dishes := by simpa [isOrphan] using h
  refine ⟨by simp [dishKey, hnone], fun id' hid' => hnoKey ?_⟩
  obtain ⟨hkey, -⟩ := Option.filter_eq_some_iff.mp hid'
  obtain ⟨dish, hdish, rfl⟩ := Option.map_eq_some_iff.mp hkey
  exact List.mem_map.mpr ⟨(id', dish), Table.mem_toList.mpr hdish, rfl⟩

theorem orphan_unmoved (h : isOrphan x s.dishes id = true) (person : String) :
    (moveComments x fails s).stored.ratings.lookup ⟨id, person⟩ = s.ratings.lookup ⟨id, person⟩ := by
  obtain ⟨hstays, hnoKey⟩ := dishKey_orphan h
  rw [moveComments_ratings, moveRatings_ratings, loop_frame hstays hnoKey, keyDishes_ratings]

theorem present_of_lookup (h : t.lookup r.1 = some r.2) : Present keyFor t r := fun _ _ => ⟨r.2, h, le_rfl, fun _ => rfl⟩

theorem nodup_orphanRatings (fails : Call → Bool) : ((orphanRatings x fails s).map Prod.fst).Nodup := by
  refine (Table.nodup_toList (keyDishes x fails s).stored.ratings).sublist ?_
  exact List.filter_sublist.map _

theorem knownLoop_covers (fails : Call → Bool) (hids : Unambiguous x sourceMap s) :
    let t' := (moveComments x fails s).stored.ratings
    Covers x sourceMap s t' s.ratings ∧ (Covers x sourceMap s s.ratings t' ↔
      LosesNone x fails sourceMap s (dishKey x s.dishes) false (keyDishes x fails s) s.ratings.toList) := by
  have hloop := loop_covers fails (m := keyDishes x fails s) (moves_dishKey x sourceMap s) hids false (Table.nodup_toList s.ratings)
    fun r hr => present_of_lookup (by rw [keyDishes_ratings]; exact Table.mem_toList.mp hr)
  rwa [← moveRatings_ratings, ← moveComments_ratings, keyDishes_ratings] at hloop

theorem orphanLoop_covers (fails : Call → Bool) (hids : Unambiguous x sourceMap s) :
    let t' := (migrateStableKeys x fails sourceMap s).stored.ratings
    Covers x sourceMap s t' (moveComments x fails s).stored.ratings ∧ (Covers x sourceMap s (moveComments x fails s).stored.ratings t' ↔
      LosesNone x fails sourceMap s (sourceKey x sourceMap) true (moveComments x fails s) (orphanRatings x fails s)) := by
  have hloop := loop_covers fails (m := moveComments x fails s) (moves_sourceKey x sourceMap s) hids true (nodup_orphanRatings fails)
    fun r hr => present_of_lookup (by
      obtain ⟨hlookup, horphan⟩ := mem_orphanRatings hr
      rw [orphan_unmoved horphan, hlookup])
  rwa [← migrate_ratings] at hloop

theorem votesKept_migrate_iff (fails : Call → Bool) (hids : Unambiguous x sourceMap s) :
    VotesKept x sourceMap s (migrateStableKeys x fails sourceMap s).stored ↔
      LosesNone x fails sourceMap s (dishKey x s.dishes) false (keyDishes x fails s) s.ratings.toList ∧
        LosesNone x fails sourceMap s (sourceKey x sourceMap) true (moveComments x fails s) (orphanRatings x fails s) := by
  obtain ⟨hdown, hknown⟩ := knownLoop_covers fails hids
  obtain ⟨hdown', horphans⟩ := orphanLoop_covers fails hids
  rw [votesKept_iff (hdown'.trans hdown), ← hknown, ← horphans]
  exact ⟨fun h => ⟨h.trans hdown', hdown.trans h⟩, fun ⟨h, h'⟩ => h.trans h'⟩

/-! ### Comments are kept -/

theorem commentLoop_kept (hmoves : Moves x sourceMap s keyFor) (hids : Unambiguous x sourceMap s) {comments : List (String × String)}
    (hcomments : ∀ c ∈ comments, s.comments.lookup c.1 = some c.2) (hkept : CommentsKept x sourceMap s m.stored) :
    CommentsKept x sourceMap s (comments.foldl (commentTurn fails keyFor) m).stored := by
  refine foldl_invariant (P := fun m' : Migration => CommentsKept x sourceMap s m'.stored) (fun m' c hc h => ?_) hkept
  obtain ⟨-, -, heq | ⟨newKey, hkey, heq⟩⟩ := commentTurn_spec fails keyFor m' c
  · rwa [CommentsKept, heq]
  · intro id dish hdish
    obtain ⟨dish', hdish', hone⟩ := h id dish hdish
    rw [heq, Table.lookup_adjust, hdish', Option.map_some]
    split
    · rename_i hid
      have hread := hcomments c hc
      rw [← hid, hdish] at hread
      obtain rfl := Option.some.inj hread
      exact ⟨newKey, rfl, hmoves.oneDish hids hkey⟩
    · exact ⟨dish', rfl, hone⟩

/-- Whatever fails, no comment is lost. -/
theorem commentsKept_migrate (fails : Call → Bool) (hids : Unambiguous x sourceMap s) :
    CommentsKept x sourceMap s (migrateStableKeys x fails sourceMap s).stored := by
  rw [migrateStableKeys_eq]
  refine commentLoop_kept (moves_sourceKey x sourceMap s) hids (fun c hc => ?_) ?_
  · rw [← moveRatings_comments (x := x) fails]
    exact Table.mem_toList.mp (List.mem_of_mem_filter hc)
  · rw [CommentsKept, (loop_rest _ _ _ _ _).2]
    refine commentLoop_kept (moves_dishKey x sourceMap s) hids (fun c hc => ?_) fun id dish hdish => ?_
    · rw [← moveRatings_comments (x := x) fails]
      exact Table.mem_toList.mp hc
    · exact ⟨dish, by rw [moveRatings_comments, hdish], .refl _⟩

/-! ### A run without failures -/

/-- No call fails. -/
def sure : Call → Bool := fun _ => false

@[simp] theorem sure_eq (call : Call) : sure call = false := rfl

theorem key_keyed (d : DishName) : DishName.key x { d with stableKey := d.key x } = d.key x := by
  simp only [DishName.key]
  split <;> simp_all

/-- Every dish gets its key. -/
theorem keyLoop_sure (hthrew : m.threw = false) (hstored : m.stored = s) :
    let m' := s.dishes.toList.foldl (keyDish x sure) m
    m'.threw = false ∧ ∀ id, m'.stored.dishes.lookup id = (s.dishes.lookup id).map fun d => { d with stableKey := d.key x } := by
  have hloop := foldl_splits (f := keyDish x sure) (s := m) (l := s.dishes.toList) (P := fun before (m' : Migration) =>
    m'.threw = false ∧ ∀ id, m'.stored.dishes.lookup id =
      (s.dishes.lookup id).map fun d => if (id, d) ∈ before then { d with stableKey := d.key x } else d)
    ⟨hthrew, fun id => by simp [hstored]⟩ ?_
  · obtain ⟨hruns, hdishes⟩ := hloop
    refine ⟨hruns, fun id => ?_⟩
    rw [hdishes]
    refine Option.map_congr fun d hd => ?_
    rw [if_pos (Table.mem_toList.mpr hd)]
  · rintro before ⟨i, v⟩ rest hsplit ⟨hruns, hdishes⟩
    have hv : s.dishes.lookup i = some v := Table.mem_toList.mp (by rw [hsplit]; simp)
    generalize before.foldl (keyDish x sure) m = m₁ at hruns hdishes ⊢
    have hhandled : ∀ id d, s.dishes.lookup id = some d → ((id, d) ∈ before ++ [(i, v)] ↔ (id, d) ∈ before ∨ id = i) := by
      intro id d hd
      simp only [List.mem_append, List.mem_singleton, Prod.mk.injEq]
      refine or_congr_right ⟨fun h => h.1, ?_⟩
      rintro rfl
      exact ⟨rfl, Option.some.inj (hd.symm.trans hv)⟩
    simp only [keyDish, hruns, Bool.false_or, sure_eq]
    by_cases hkeyed : v.stableKey = ""
    · simp only [hkeyed, ne_eq, not_true_eq_false, decide_false, Bool.false_eq_true, if_false]
      refine ⟨trivial, fun id => ?_⟩
      rw [Table.lookup_adjust, hdishes, Option.map_map]
      refine Option.map_congr fun d hd => ?_
      have hhandled := hhandled id d hd
      by_cases hid : id = i
      · obtain rfl : d = v := Option.some.inj (by rw [← hd, hid, hv])
        rw [if_pos (hhandled.mpr (.inr hid))]
        simp only [Function.comp, hid, if_true]
        split <;> rfl
      · simp [Function.comp, hhandled, hid]
    · simp only [hkeyed, ne_eq, not_false_eq_true, decide_true, if_true]
      refine ⟨hruns, fun id => ?_⟩
      rw [hdishes]
      refine Option.map_congr fun d hd => ?_
      have hhandled := hhandled id d hd
      by_cases hid : id = i
      · obtain rfl : d = v := Option.some.inj (by rw [← hd, hid, hv])
        have hsame : ({ d with stableKey := d.key x } : DishName) = d := by simp [DishName.key, hkeyed]
        simp [hsame]
      · simp [hhandled, hid]

/-- Without failures, the vote that cannot be moved is deleted. -/
theorem mergeRating_sure (lenient : Bool) (target : RatingKey) (hruns : m.threw = false) {n : ℕ} (hn : m.stored.ratings.lookup r.1 = some n) :
    let m' := mergeRating sure lenient target m r
    m'.threw = false ∧ ∀ k n', m'.stored.ratings.lookup k = some n' → k ≠ r.1 ∧ (m.stored.ratings.lookup k).isSome = true := by
  simp only [mergeRating, sure_eq, Bool.and_false, Bool.false_or, Bool.false_eq_true, if_false]
  generalize hraised : (if ((m.stored.ratings.lookup target).any fun n' => decide (n' < r.2)) = true then
    raiseRating m.stored.ratings target r.2 else m.stored.ratings) = raised
  have hrows : ∀ k, (raised.lookup k).isSome = (m.stored.ratings.lookup k).isSome := by
    intro k
    rw [← hraised]
    split
    · rw [lookup_raiseRating, Option.isSome_map]
    · rfl
  have hpresent : (raised.lookup r.1).isNone = false := by
    rw [Option.isNone_eq_false_iff, hrows, hn]
    rfl
  simp only [hpresent, Bool.false_eq_true, if_false]
  refine ⟨hruns, fun k n' hk => ?_⟩
  rw [Table.lookup_erase_of] at hk
  split at hk
  · cases hk
  · exact ⟨‹_›, by rw [← hrows, hk]; rfl⟩

/-- A turn without failures removes the vote from an id that is not its key. -/
theorem rewriteTurn_sure (lenient : Bool) (hruns : m.threw = false) (hkey : keyFor r.1.dishId = some key) {n : ℕ}
    (hn : m.stored.ratings.lookup r.1 = some n) :
    let m' := rewriteTurn sure keyFor lenient m r
    m'.threw = false ∧ (key = r.1.dishId ∧ m'.stored = m.stored ∨ ∀ k n', m'.stored.ratings.lookup k = some n' →
      k ≠ r.1 ∧ (k.dishId = key ∨ (m.stored.ratings.lookup k).isSome = true)) := by
  simp only [rewriteTurn, hruns, hkey, rewriteRating, sure_eq, Bool.false_eq_true, if_false]
  by_cases hself : key = r.1.dishId
  · have hsame : (⟨key, r.1.stableUid⟩ : RatingKey) = r.1 := by rw [hself]
    simp only [moveRating, hn, hsame, if_true]
    exact ⟨trivial, .inl ⟨hself, trivial⟩⟩
  · have hother : (⟨key, r.1.stableUid⟩ : RatingKey) ≠ r.1 := fun heq => hself (congrArg RatingKey.dishId heq)
    simp only [moveRating, hn, if_neg hother]
    cases hfree : m.stored.ratings.lookup ⟨key, r.1.stableUid⟩ with
    | some taken =>
      obtain ⟨hrunsOn, hrows⟩ := mergeRating_sure lenient ⟨key, r.1.stableUid⟩ hruns hn
      refine ⟨hrunsOn, .inr fun k n' hk => ?_⟩
      obtain ⟨hne, hrow⟩ := hrows k n' hk
      exact ⟨hne, .inr hrow⟩
    | none =>
      simp only [Option.isSome_none, Bool.false_eq_true, if_false]
      refine ⟨trivial, .inr fun k n' hk => ?_⟩
      simp only [Table.lookup_insert_of, Table.lookup_erase_of] at hk
      split at hk
      · rename_i htarget
        rw [htarget]
        exact ⟨hother, .inl rfl⟩
      · split at hk
        · cases hk
        · exact ⟨‹_›, .inr (by rw [hk]; rfl)⟩

/-- The id is not to be moved, or to itself. -/
def Stays (keyFor : String → Option String) (id : String) : Prop := ∀ key, keyFor id = some key → key = id

/-- After a loop without failures, what is left of its votes stays; all others are under keys or were there before. -/
theorem loop_sure (hmoves : Moves x sourceMap s keyFor) (hids : Unambiguous x sourceMap s) (lenient : Bool)
    {ratings : List (RatingKey × ℕ)} (hnodup : (ratings.map Prod.fst).Nodup)
    (hstart : ∀ r ∈ ratings, Present keyFor m.stored.ratings r) (hruns : m.threw = false) :
    let m' := ratings.foldl (rewriteTurn sure keyFor lenient) m
    m'.threw = false ∧ ∀ k n, m'.stored.ratings.lookup k = some n → (∃ id, keyFor id = some k.dishId) ∨
      (m.stored.ratings.lookup k).isSome = true ∧ (k ∈ ratings.map Prod.fst → Stays keyFor k.dishId) := by
  refine foldl_splits (P := fun before (m' : Migration) => m'.threw = false ∧ ∀ k n, m'.stored.ratings.lookup k = some n →
    (∃ id, keyFor id = some k.dishId) ∨
      (m.stored.ratings.lookup k).isSome = true ∧ (k ∈ before.map Prod.fst → Stays keyFor k.dishId))
    ⟨hruns, fun k n hk => .inr ⟨by rw [hk]; rfl, by simp⟩⟩ ?_
  rintro before a rest hsplit ⟨hrunsOn, hrows⟩
  have hpresent := loop_present sure hmoves hids lenient hnodup hstart hsplit a List.mem_cons_self
  generalize before.foldl (rewriteTurn sure keyFor lenient) m = m₁ at hrunsOn hrows hpresent ⊢
  -- What was there before the turn and is not its vote's id unless that stays.
  have hold : ∀ k n, m₁.stored.ratings.lookup k = some n → (k = a.1 → Stays keyFor a.1.dishId) →
      (∃ id, keyFor id = some k.dishId) ∨
        (m.stored.ratings.lookup k).isSome = true ∧ (k ∈ (before ++ [a]).map Prod.fst → Stays keyFor k.dishId) := by
    intro k n hk hstays
    refine (hrows k n hk).imp_right fun ⟨hrow, hbefore⟩ => ⟨hrow, fun hmem => ?_⟩
    rw [List.map_append, List.mem_append] at hmem
    rcases hmem with hmem | hmem
    · exact hbefore hmem
    · obtain rfl : k = a.1 := by simpa using hmem
      exact hstays rfl
  cases hkey : keyFor a.1.dishId with
  | none =>
    have hnothing : rewriteTurn sure keyFor lenient m₁ a = m₁ := by simp [rewriteTurn, hkey]
    rw [hnothing]
    refine ⟨hrunsOn, fun k n hk => hold k n hk fun _ key hkey' => ?_⟩
    rw [hkey] at hkey'
    cases hkey'
  | some key =>
    obtain ⟨n, hn, -⟩ := hpresent key hkey
    obtain ⟨hrunsOn', ⟨hself, hsame⟩ | hmoved⟩ := rewriteTurn_sure lenient hrunsOn hkey hn
    · refine ⟨hrunsOn', fun k n hk => hold k n (by rwa [← hsame]) fun _ key' hkey' => ?_⟩
      rw [hkey] at hkey'
      rw [← Option.some.inj hkey', hself]
    · refine ⟨hrunsOn', fun k n hk => ?_⟩
      obtain ⟨hne, htarget | hrow⟩ := hmoved k n hk
      · exact .inl ⟨a.1.dishId, by rw [htarget, hkey]⟩
      · obtain ⟨n', hn'⟩ := Option.isSome_iff_exists.mp hrow
        exact hold k n' hn' fun heq => absurd heq hne

/-- A loop over comments without failures gives each of them its key. -/
theorem commentLoop_sure (keyFor : String → Option String) {comments : List (String × String)} (hnodup : (comments.map Prod.fst).Nodup)
    (hread : ∀ c ∈ comments, m.stored.comments.lookup c.1 = some c.2) (hruns : m.threw = false) :
    let m' := comments.foldl (commentTurn sure keyFor) m
    m'.threw = false ∧ ∀ id, m'.stored.comments.lookup id =
      (m.stored.comments.lookup id).map fun dish => if (id, dish) ∈ comments then (keyFor dish).getD dish else dish := by
  refine foldl_splits (P := fun before (m' : Migration) => m'.threw = false ∧ ∀ id, m'.stored.comments.lookup id =
    (m.stored.comments.lookup id).map fun dish => if (id, dish) ∈ before then (keyFor dish).getD dish else dish)
    ⟨hruns, fun id => by simp⟩ ?_
  rintro before ⟨i, old⟩ rest hsplit ⟨hrunsOn, hcomments⟩
  have hold : m.stored.comments.lookup i = some old := hread (i, old) (by rw [hsplit]; simp)
  have hfirst : ∀ dish, (i, dish) ∉ before := by
    intro dish hmem
    rw [hsplit, List.map_append, List.nodup_append] at hnodup
    exact hnodup.2.2 i (List.mem_map_of_mem hmem) i (by simp) rfl
  generalize before.foldl (commentTurn sure keyFor) m = m₁ at hrunsOn hcomments ⊢
  have hhandled : ∀ id dish, m.stored.comments.lookup id = some dish → id ≠ i → ((id, dish) ∈ before ++ [(i, old)] ↔ (id, dish) ∈ before) := by
    intro id dish _ hne
    simp [hne]
  simp only [commentTurn, hrunsOn, sure_eq, Bool.false_eq_true, if_false]
  cases hkey : keyFor old with
  | none =>
    refine ⟨hrunsOn, fun id => ?_⟩
    rw [hcomments]
    refine Option.map_congr fun dish hdish => ?_
    by_cases hid : id = i
    · obtain rfl : dish = old := Option.some.inj (by rw [← hdish, hid, hold])
      simp [hkey]
    · simp only [hhandled id dish hdish hid]
  | some key =>
    refine ⟨rfl, fun id => ?_⟩
    rw [Table.lookup_adjust, hcomments, Option.map_map]
    refine Option.map_congr fun dish hdish => ?_
    by_cases hid : id = i
    · obtain rfl : dish = old := Option.some.inj (by rw [← hdish, hid, hold])
      simp [hid, hkey]
    · simp only [Function.comp, hhandled id dish hdish hid, if_neg hid]

theorem mem_allKeys {dishes : Table String DishName} : key ∈ allKeys x dishes ↔ ∃ id, idToKey x dishes id = some key := by
  simp only [allKeys, List.mem_map, idToKey, Option.map_eq_some_iff]
  constructor
  · rintro ⟨⟨id, d⟩, hmem, rfl⟩
    exact ⟨id, d, Table.mem_toList.mp hmem, rfl⟩
  · rintro ⟨id, d, hd, rfl⟩
    exact ⟨(id, d), Table.mem_toList.mpr hd, rfl⟩

theorem dishKey_of_isKey (hids : Unambiguous x sourceMap s) (hkey : IsKey x sourceMap s key) : dishKey x s.dishes key = none := by
  rw [Option.eq_none_iff_forall_ne_some]
  intro key' h
  have hstays := (moves_dishKey x sourceMap s).stays hids hkey h
  obtain ⟨-, hne⟩ := Option.filter_eq_some_iff.mp h
  simp [hstays] at hne

/-- The dish of a vote or comment is settled: no loop moves it. -/
def Settled (x : Platform) (sourceMap : Table String String) (dishes : Table String DishName) (id : String) : Prop :=
  dishKey x dishes id = none ∧ (isOrphan x dishes id = true → Stays (sourceKey x sourceMap) id)

/-- Everything is settled, so another run finds nothing to do. -/
structure Done (x : Platform) (sourceMap : Table String String) (s : Stored) : Prop where
  dishes : ∀ id d, s.dishes.lookup id = some d → d.stableKey = d.key x
  ratings : ∀ k n, s.ratings.lookup k = some n → Settled x sourceMap s.dishes k.dishId
  comments : ∀ id dish, s.comments.lookup id = some dish → Settled x sourceMap s.dishes dish

theorem settled_of_isKey (hids : Unambiguous x sourceMap s) (hkey : IsKey x sourceMap s key) : Settled x sourceMap s.dishes key :=
  ⟨dishKey_of_isKey hids hkey, fun _ _ h => (moves_sourceKey x sourceMap s).stays hids hkey h⟩

theorem keyDishes_sure (x : Platform) (s : Stored) : (keyDishes x sure s).threw = false ∧
    ∀ id, (keyDishes x sure s).stored.dishes.lookup id = (s.dishes.lookup id).map fun d => { d with stableKey := d.key x } :=
  keyLoop_sure (x := x) (s := s) (m := Migration.mk s 0 0 0 0 false) rfl rfl

/-- After the loop over the ids of stored dishes, no vote is under one. -/
theorem moveRatings_sure (hids : Unambiguous x sourceMap s) : (moveRatings x sure s).threw = false ∧
    ∀ k n, (moveRatings x sure s).stored.ratings.lookup k = some n → dishKey x s.dishes k.dishId = none := by
  have hloop := loop_sure (m := keyDishes x sure s) (moves_dishKey x sourceMap s) hids false (Table.nodup_toList s.ratings)
    (fun r hr => present_of_lookup (by rw [keyDishes_ratings]; exact Table.mem_toList.mp hr)) (keyDishes_sure x s).1
  rw [keyDishes_ratings] at hloop
  refine ⟨?_, fun k n hk => ?_⟩
  · rw [moveRatings, keyDishes_ratings]
    exact hloop.1
  · rw [moveRatings_ratings] at hk
    rcases hloop.2 k n hk with ⟨id, hkey⟩ | ⟨hrow, hstays⟩
    · exact dishKey_of_isKey hids ((moves_dishKey x sourceMap s).isKey id _ hkey)
    · obtain ⟨n', hn'⟩ := Option.isSome_iff_exists.mp hrow
      have hstays := hstays (List.mem_map.mpr ⟨(k, n'), Table.mem_toList.mpr hn', rfl⟩)
      rw [Option.eq_none_iff_forall_ne_some]
      intro key hkey
      have hne := (Option.filter_eq_some_iff.mp hkey).2
      simp [hstays key hkey] at hne

theorem moveComments_sure (hids : Unambiguous x sourceMap s) : (moveComments x sure s).threw = false ∧
    ∀ id, (moveComments x sure s).stored.comments.lookup id = (s.comments.lookup id).map fun dish => (dishKey x s.dishes dish).getD dish := by
  have hloop := commentLoop_sure (m := moveRatings x sure s) (dishKey x s.dishes) (Table.nodup_toList s.comments)
    (fun c hc => by rw [moveRatings_comments]; exact Table.mem_toList.mp hc) (moveRatings_sure hids).1
  rw [moveRatings_comments] at hloop
  rw [moveComments, moveRatings_comments]
  refine ⟨hloop.1, fun id => ?_⟩
  rw [hloop.2 id]
  refine Option.map_congr fun dish hdish => ?_
  rw [if_pos (Table.mem_toList.mpr hdish)]

theorem migrate_dishes (id : String) : (migrateStableKeys x sure sourceMap s).stored.dishes.lookup id =
    (s.dishes.lookup id).map fun d => { d with stableKey := d.key x } := by
  rw [migrateStableKeys_eq, (commentLoop_rest _ _ _ _).1, (loop_rest _ _ _ _ _).1, moveComments, (commentLoop_rest _ _ _ _).1, moveRatings,
    read_stored, (loop_rest _ _ _ _ _).1]
  exact (keyDishes_sure x s).2 id

/-- The ids mean the same after a run. -/
theorem migrate_idToKey (id : String) : idToKey x (migrateStableKeys x sure sourceMap s).stored.dishes id = idToKey x s.dishes id := by
  rw [idToKey, migrate_dishes, Option.map_map, idToKey]
  exact Option.map_congr fun d _ => key_keyed d

theorem migrate_settled_iff (id : String) :
    Settled x sourceMap (migrateStableKeys x sure sourceMap s).stored.dishes id ↔ Settled x sourceMap s.dishes id := by
  have hkeys : (id ∉ allKeys x (migrateStableKeys x sure sourceMap s).stored.dishes) ↔ id ∉ allKeys x s.dishes := by
    simp only [mem_allKeys, migrate_idToKey]
  simp only [Settled, dishKey, isOrphan, migrate_idToKey, decide_eq_decide.mpr hkeys]

theorem comment_settled (hids : Unambiguous x sourceMap s) {dish : String}
    (h : (migrateStableKeys x sure sourceMap s).stored.comments.lookup id = some dish) : Settled x sourceMap s.dishes dish := by
  have hmem : ∀ c, c ∈ orphanComments x sure s ↔ s.comments.lookup c.1 = some c.2 ∧ isOrphan x s.dishes c.2 = true := by
    rintro ⟨i, d⟩
    rw [orphanComments, List.mem_filter, moveRatings_comments, Table.mem_toList]
  obtain ⟨hruns, hknown⟩ := moveComments_sure (x := x) hids
  have horphanLoop := loop_sure (m := moveComments x sure s) (moves_sourceKey x sourceMap s) hids true (nodup_orphanRatings sure)
    (fun r hr => present_of_lookup (by
      obtain ⟨hlookup, horphan⟩ := mem_orphanRatings hr
      rw [orphan_unmoved horphan, hlookup])) hruns
  have hnodup : ((orphanComments x sure s).map Prod.fst).Nodup := by
    refine (Table.nodup_toList (moveRatings x sure s).stored.comments).sublist ?_
    exact List.filter_sublist.map _
  have hread : ∀ c ∈ orphanComments x sure s, (moveComments x sure s).stored.comments.lookup c.1 = some c.2 := by
    intro c hc
    obtain ⟨hlookup, horphan⟩ := (hmem c).mp hc
    rw [hknown, hlookup, Option.map_some, (dishKey_orphan horphan).1, Option.getD_none]
  have hloop := commentLoop_sure (sourceKey x sourceMap) hnodup (fun c hc => by rw [(loop_rest _ _ _ _ _).2, hread c hc]) horphanLoop.1
  rw [(loop_rest _ _ _ _ _).2] at hloop
  rw [migrateStableKeys_eq, hloop.2, hknown, Option.map_map] at h
  obtain ⟨old, hold, rfl⟩ := Option.map_eq_some_iff.mp h
  simp only [Function.comp, hmem]
  by_cases horphan : isOrphan x s.dishes old = true
  · -- An orphan stays one until the source gives it a key.
    have hunknown := (dishKey_orphan horphan).1
    simp only [hunknown, Option.getD_none]
    rw [if_pos ⟨hold, horphan⟩]
    cases hkey : sourceKey x sourceMap old with
    | none =>
      rw [Option.getD_none]
      exact ⟨hunknown, fun _ key h => by rw [hkey] at h; cases h⟩
    | some key => exact settled_of_isKey hids ((moves_sourceKey x sourceMap s).isKey old key hkey)
  · cases hkey : dishKey x s.dishes old with
    | none =>
      rw [Option.getD_none, if_neg fun h => horphan h.2]
      exact ⟨hkey, fun h => absurd h horphan⟩
    | some key =>
      have hsettled := settled_of_isKey hids ((moves_dishKey x sourceMap s).isKey old key hkey)
      have hnotOrphan : isOrphan x s.dishes key ≠ true := fun h => (dishKey_orphan h).2 old hkey
      rw [Option.getD_some, if_neg fun h => hnotOrphan h.2]
      exact hsettled

/-- After a run without failures everything is settled. -/
theorem done_of_sure (hids : Unambiguous x sourceMap s) : Done x sourceMap (migrateStableKeys x sure sourceMap s).stored where
  dishes := fun id d hd => by
    rw [migrate_dishes] at hd
    obtain ⟨old, -, rfl⟩ := Option.map_eq_some_iff.mp hd
    exact (key_keyed old).symm
  ratings := fun k n hk => by
    rw [migrate_settled_iff]
    rw [migrate_ratings] at hk
    have hloop := loop_sure (m := moveComments x sure s) (moves_sourceKey x sourceMap s) hids true (nodup_orphanRatings sure)
      (fun r hr => present_of_lookup (by
        obtain ⟨hlookup, horphan⟩ := mem_orphanRatings hr
        rw [orphan_unmoved horphan, hlookup])) (moveComments_sure hids).1
    rcases hloop.2 k n hk with ⟨id, hkey⟩ | ⟨hrow, hstays⟩
    · exact settled_of_isKey hids ((moves_sourceKey x sourceMap s).isKey id _ hkey)
    · obtain ⟨n', hn'⟩ := Option.isSome_iff_exists.mp hrow
      refine ⟨(moveRatings_sure hids).2 k n' (by rw [← moveComments_ratings, hn']), fun horphan => hstays ?_⟩
      rw [orphan_unmoved horphan] at hn'
      refine List.mem_map.mpr ⟨(k, n'), List.mem_filter.mpr ⟨?_, horphan⟩, rfl⟩
      rw [keyDishes_ratings]
      exact Table.mem_toList.mpr hn'
  comments := fun id dish hdish => by
    rw [migrate_settled_iff]
    exact comment_settled hids hdish

/-- A loop in which no turn changes what is stored. -/
theorem loop_fixed {f : Migration → α → Migration} {l : List α} (hturn : ∀ m, m.stored = s → ∀ a ∈ l, (f m a).stored = s)
    (hstored : m.stored = s) : (l.foldl f m).stored = s :=
  foldl_invariant (P := fun m' : Migration => m'.stored = s) (fun m' a ha h => hturn m' h a ha) hstored

theorem keyDish_fixed (hdone : Done x sourceMap s) (hstored : m.stored = s) {d : String × DishName} (hd : d ∈ s.dishes.toList) :
    (keyDish x fails m d).stored = s := by
  obtain ⟨hratings, hcomments, hdishes | ⟨hunkeyed, hdishes⟩⟩ := keyDish_spec (x := x) fails m d
  · rw [← hstored]
    cases hm : (keyDish x fails m d).stored
    simp_all
  · have hlookup := Table.mem_toList.mp hd
    have hkey := hdone.dishes d.1 d.2 hlookup
    rw [hstored, Table.adjust_eq_self] at hdishes
    · rw [← hstored]
      cases hm : (keyDish x fails m d).stored
      simp_all
    · rintro ⟨id, v⟩ he
      split
      · rename_i hid
        have hv : s.dishes.lookup id = some v := AList.mem_lookup_iff.mpr he
        obtain rfl : v = d.2 := Option.some.inj (by rw [← hv, show id = d.1 from hid, hlookup])
        rw [← hkey]
      · rfl

theorem rewriteTurn_fixed (hruns : m.stored = s) (hr : r ∈ s.ratings.toList) (hstays : Stays keyFor r.1.dishId) :
    (rewriteTurn sure keyFor lenient m r).stored = s := by
  have hlookup := Table.mem_toList.mp hr
  unfold rewriteTurn
  split
  · exact hruns
  · cases hkey : keyFor r.1.dishId with
    | none => exact hruns
    | some key =>
      have hself : (⟨key, r.1.stableUid⟩ : RatingKey) = r.1 := by rw [hstays key hkey]
      simp [rewriteRating, moveRating, hruns, hlookup, hself]

theorem commentTurn_fixed (hstored : m.stored = s) {c : String × String} (hc : c ∈ s.comments.toList) (hstays : Stays keyFor c.2) :
    (commentTurn fails keyFor m c).stored = s := by
  obtain ⟨hdishes, hratings, hcomments | ⟨key, hkey, hcomments⟩⟩ := commentTurn_spec fails keyFor m c
  · rw [← hstored]
    cases hm : (commentTurn fails keyFor m c).stored
    simp_all
  · have hlookup := Table.mem_toList.mp hc
    rw [hstored, Table.adjust_eq_self] at hcomments
    · rw [← hstored]
      cases hm : (commentTurn fails keyFor m c).stored
      simp_all
    · rintro ⟨id, dish⟩ he
      split
      · rename_i hid
        have hdish : s.comments.lookup id = some dish := AList.mem_lookup_iff.mpr he
        obtain rfl : dish = c.2 := Option.some.inj (by rw [← hdish, show id = c.1 from hid, hlookup])
        exact hstays key hkey
      · rfl

theorem Settled.stays (h : Settled x sourceMap s.dishes id) : Stays (dishKey x s.dishes) id := fun key hkey => by
  rw [h.1] at hkey
  cases hkey

/-- Where everything is settled, a run changes nothing. -/
theorem Done.fixed (hdone : Done x sourceMap s) : (migrateStableKeys x sure sourceMap s).stored = s := by
  have hkeyed : (keyDishes x sure s).stored = s := by
    rw [keyDishes, read_stored]
    exact loop_fixed (fun m hm d hd => keyDish_fixed hdone hm hd) (read_stored _ _ _)
  have hmoved : (moveRatings x sure s).stored = s := by
    rw [moveRatings, read_stored, keyDishes_ratings]
    refine loop_fixed (fun m hm r hr => rewriteTurn_fixed hm hr ?_) hkeyed
    exact (hdone.ratings r.1 r.2 (Table.mem_toList.mp hr)).stays
  have hmovedComments : (moveComments x sure s).stored = s := by
    rw [moveComments, moveRatings_comments]
    refine loop_fixed (fun m hm c hc => commentTurn_fixed hm hc ?_) hmoved
    exact (hdone.comments c.1 c.2 (Table.mem_toList.mp hc)).stays
  rw [migrateStableKeys_eq]
  refine loop_fixed (fun m hm c hc => ?_) (loop_fixed (fun m hm r hr => ?_) hmovedComments)
  · obtain ⟨hread, horphan⟩ := List.mem_filter.mp hc
    rw [moveRatings_comments] at hread
    exact commentTurn_fixed hm hread ((hdone.comments c.1 c.2 (Table.mem_toList.mp hread)).2 horphan)
  · obtain ⟨hread, horphan⟩ := List.mem_filter.mp hr
    rw [keyDishes_ratings] at hread
    exact rewriteTurn_fixed hm hread ((hdone.ratings r.1 r.2 (Table.mem_toList.mp hread)).2 horphan)

theorem runsOnce (hids : Unambiguous x sourceMap s) : RunsOnce x sourceMap s := (done_of_sure hids).fixed

/-! ### The migration -/

/-- A fold that changes nothing. -/
def asciiPlatform : Platform := ⟨fun name => name, fun _ => "", fun _ _ => false⟩

/-- One dish without a key and one vote for it. -/
def oneVote : Stored where
  dishes := Table.ofList [("d1", ⟨"lasagne", ""⟩)]
  ratings := Table.ofList [(⟨"d1", "anna"⟩, 5)]
  comments := ∅

theorem oneVote_idToKey (h : idToKey asciiPlatform oneVote.dishes id = some key) : id = "d1" ∧ key = "lasagne" := by
  obtain ⟨d, hd, rfl⟩ := Option.map_eq_some_iff.mp h
  rw [show oneVote.dishes = (∅ : Table String DishName).insert "d1" ⟨"lasagne", ""⟩ from rfl, Table.lookup_insert_of] at hd
  split at hd
  · obtain rfl := Option.some.inj hd
    exact ⟨‹_›, by decide +kernel⟩
  · simp at hd

theorem oneVote_unambiguous : Unambiguous asciiPlatform ∅ oneVote := by
  intro key key' id hkey hkey' _ _
  have honly : ∀ key, IsKey asciiPlatform ∅ oneVote key → key = "lasagne" := by
    rintro key (⟨id, hid⟩ | ⟨id, name, hname, -⟩)
    · exact (oneVote_idToKey hid).2
    · simp at hname
  rw [honly key hkey, honly key' hkey']

/-- The key of one dish is an id of another one in the source: a second run moves the vote on. -/
theorem ambiguous_moved_again :
    let sourceMap := Table.ofList [("p1", "pizza"), ("pizza", "pizza margherita")]
    ¬RunsOnce asciiPlatform sourceMap ⟨∅, Table.ofList [(⟨"p1", "anna"⟩, 5)], ∅⟩ := by
  intro sourceMap hruns
  have hvotes := congrArg (fun s : Stored => s.ratings.entries.map Sigma.fst) hruns
  revert hvotes
  decide +kernel

end Pokyh.Menu.StableKeys

import Mathlib.Data.Finset.Basic
import Mathlib.Data.Finset.Dedup
import Pokyh.Lib.Texts
import Pokyh.Lib.Votes

/-!
# Account — Majority

The class of a pupil from the classes of their lessons (`webuntis/accountClass.ts`): once from ids (`majorityClassId`) and once from
names (`majorityClassName`), which count as the same when they differ in case or in the white space around them.

* `Leads`: the class that both look for.
* `majorityClassId_iff`, `majorityClassName_iff`: each of them finds exactly that one.
* `majority_agrees`: **both find the same class**, for names that stay different in lower case and without outer white space, and
  whatever the order of the lessons, the order in a lesson and repetitions are.
* `merged_by_case`: two classes whose names differ in case only are one class to `majorityClassName`.
-/

namespace Pokyh.Account.Majority
open Pokyh.Lib Pokyh.Lib.Votes

/-! ### The code -/

def MIN_TIMETABLE_LESSONS : ℕ := 2

/-- The class in more than half of the lessons that name one, by id; 0 for none. -/
def majorityClassId (lessons : List (List ℤ)) : ℤ :=
  let counted := lessons.filter (· ≠ [])
  if counted.length < MIN_TIMETABLE_LESSONS then 0
  else ((lead counted.length (tallyOf (counted.map fun ids => ids.map fun id => (id, id)))).map (·.key)).getD 0

variable (unicode : List Char → List Char)

def classKey (name : List Char) : List Char := toLowerCase unicode (trim name)

/-- The keys of a lesson's names with the names they come from, without those that have no key. -/
def keyed (names : List (List Char)) : List (List Char × List Char) :=
  (names.map fun name => (classKey unicode name, trim name)).filter (·.1 ≠ [])

/-- The same by name. -/
def majorityClassName (lessons : List (List (List Char))) : Option (List Char) :=
  let counted := lessons.filter (· ≠ [])
  if counted.length < MIN_TIMETABLE_LESSONS then none
  else (lead counted.length (tallyOf (counted.map (keyed unicode)))).map (·.label)

/-! ### The class of the lessons -/

/-- The lessons that name a class at all. -/
def naming (lessons : List (List ℤ)) : ℕ := lessons.countP (· ≠ [])

def lessonsWith (lessons : List (List ℤ)) (c : ℤ) : ℕ := lessons.countP (c ∈ ·)

/-- The class in more than half of the lessons, ahead of every other. -/
structure Leads (lessons : List (List ℤ)) (c : ℤ) : Prop where
  enough : MIN_TIMETABLE_LESSONS ≤ naming lessons
  half : naming lessons < 2 * lessonsWith lessons c
  ahead : ∀ d ≠ c, lessonsWith lessons d < lessonsWith lessons c

variable {lessons lessons' : List (List ℤ)} {c : ℤ}

theorem length_counted (lessons : List (List ℤ)) : (lessons.filter (· ≠ [])).length = naming lessons :=
  List.countP_eq_length_filter.symm

theorem support_ids (lessons : List (List ℤ)) (c : ℤ) :
    support ((lessons.filter (· ≠ [])).map fun ids => ids.map fun id => (id, id)) c = lessonsWith lessons c := by
  rw [support, List.countP_map, List.countP_filter, lessonsWith]
  refine List.countP_congr fun ids _ => ?_
  cases ids with
  | nil => simp
  | cons id ids => simp

/-- **The id that is found** is that of the class that leads the lessons. -/
theorem majorityClassId_iff (hc : c ≠ 0) : majorityClassId lessons = c ↔ Leads lessons c := by
  unfold majorityClassId
  simp only [length_counted]
  split
  · rename_i hfew
    exact ⟨fun h => absurd h.symm hc, fun h => absurd h.enough (Nat.not_le.mpr hfew)⟩
  · rename_i henough
    constructor
    · intro h
      cases hlead : lead (naming lessons) (tallyOf ((lessons.filter (· ≠ [])).map fun ids => ids.map fun id => (id, id))) with
      | none =>
          rw [hlead] at h
          exact absurd h.symm hc
      | some e =>
          rw [hlead] at h
          obtain ⟨⟨hhalf, hahead⟩, -⟩ := lead_tallyOf hlead
          obtain rfl : e.key = c := h
          simp only [support_ids] at hhalf hahead
          exact ⟨Nat.not_lt.mp henough, hhalf, hahead⟩
    · rintro ⟨-, hhalf, hahead⟩
      have hmajority : Majority (naming lessons) ((lessons.filter (· ≠ [])).map fun ids => ids.map fun id => (id, id)) c := by
        simp only [Majority, support_ids]
        exact ⟨hhalf, hahead⟩
      obtain ⟨e, hlead, hkey⟩ := lead_of_majority hmajority
      rw [hlead]
      exact hkey

/-! ### Names -/

/-- The names of the classes of the lessons. -/
def named (name : ℤ → List Char) (lessons : List (List ℤ)) : List (List (List Char)) := lessons.map fun ids => ids.map name

/-- Names that stay different and are not lost in lower case and without outer white space. -/
structure Naming (name : ℤ → List Char) : Prop where
  injective : Function.Injective fun c => classKey unicode (name c)
  named : ∀ c, classKey unicode (name c) ≠ []

variable {unicode : List Char → List Char} {name : ℤ → List Char}

theorem keyed_names (hname : Naming unicode name) (ids : List ℤ) :
    keyed unicode (ids.map name) = ids.map fun c => (classKey unicode (name c), trim (name c)) := by
  rw [keyed, List.map_map]
  refine List.filter_eq_self.mpr fun v hv => ?_
  obtain ⟨c, -, rfl⟩ := List.mem_map.mp hv
  simpa using hname.named c

theorem counted_named (name : ℤ → List Char) (lessons : List (List ℤ)) :
    (named name lessons).filter (· ≠ []) = named name (lessons.filter (· ≠ [])) := by
  rw [named, named, List.filter_map]
  refine congrArg _ (List.filter_congr fun ids _ => ?_)
  simp

theorem support_names (hname : Naming unicode name) (lessons : List (List ℤ)) (c : ℤ) :
    support ((named name (lessons.filter (· ≠ []))).map (keyed unicode)) (classKey unicode (name c)) = lessonsWith lessons c := by
  rw [support, named, List.map_map, List.countP_map, List.countP_filter, lessonsWith]
  refine List.countP_congr fun ids _ => ?_
  have hkeys : classKey unicode (name c) ∈ (keyed unicode (ids.map name)).map (·.1) ↔ c ∈ ids := by
    rw [keyed_names hname, List.map_map]
    exact List.mem_map_of_injective hname.injective
  cases ids with
  | nil => simp [keyed]
  | cons id ids => simpa using hkeys

/-- Who leads the named lessons is a class with its name. -/
theorem class_of_lead (hname : Naming unicode name) {n : ℕ} {lessons : List (List ℤ)} {e : Count (List Char) (List Char)}
    (h : lead n (tallyOf ((named name lessons).map (keyed unicode))) = some e) :
    ∃ c, classKey unicode (name c) = e.key ∧ trim (name c) = e.label := by
  obtain ⟨-, ballot, hballot, hvote⟩ := lead_tallyOf h
  obtain ⟨names, hnames, rfl⟩ := List.mem_map.mp hballot
  obtain ⟨ids, -, rfl⟩ := List.mem_map.mp hnames
  rw [keyed_names hname] at hvote
  obtain ⟨c, -, hc⟩ := List.mem_map.mp hvote
  exact ⟨c, Prod.mk.inj hc⟩

/-- A key that no class has is in no lesson. -/
theorem support_none (hname : Naming unicode name) (lessons : List (List ℤ)) {k : List Char}
    (hk : ¬ ∃ c, classKey unicode (name c) = k) : support ((named name lessons).map (keyed unicode)) k = 0 := by
  refine List.countP_eq_zero.mpr fun ballot hballot hmem => hk ?_
  obtain ⟨names, hnames, rfl⟩ := List.mem_map.mp hballot
  obtain ⟨ids, -, rfl⟩ := List.mem_map.mp hnames
  rw [keyed_names hname, List.map_map] at hmem
  obtain ⟨d, -, hd⟩ : ∃ d ∈ ids, classKey unicode (name d) = k := by simpa using hmem
  exact ⟨d, hd⟩

/-- **The name that is found** is that of the class that leads the lessons. -/
theorem majorityClassName_iff (hname : Naming unicode name) {n : List Char} :
    majorityClassName unicode (named name lessons) = some n ↔ ∃ c, Leads lessons c ∧ n = trim (name c) := by
  have hlength : (named name (lessons.filter (· ≠ []))).length = naming lessons := by
    rw [named, List.length_map, length_counted]
  unfold majorityClassName
  simp only [counted_named, hlength]
  split
  · rename_i hfew
    simp only [reduceCtorEq, false_iff]
    rintro ⟨c, h, -⟩
    exact Nat.not_le.mpr hfew h.enough
  · rename_i henough
    constructor
    · intro h
      obtain ⟨e, hlead, rfl⟩ := Option.map_eq_some_iff.mp h
      obtain ⟨⟨hhalf, hahead⟩, -⟩ := lead_tallyOf hlead
      obtain ⟨c, hkey, hlabel⟩ := class_of_lead hname hlead
      rw [← hkey] at hhalf hahead
      rw [support_names hname] at hhalf
      refine ⟨c, ⟨Nat.not_lt.mp henough, hhalf, fun d hd => ?_⟩, hlabel.symm⟩
      have hbehind := hahead (classKey unicode (name d)) fun heq => hd (hname.injective heq)
      rwa [support_names hname, support_names hname] at hbehind
    · rintro ⟨c, h, rfl⟩
      have hmajority : Majority (naming lessons) ((named name (lessons.filter (· ≠ []))).map (keyed unicode)) (classKey unicode (name c)) := by
        refine ⟨by rw [support_names hname]; exact h.half, fun k hk => ?_⟩
        rw [support_names hname]
        by_cases hnamed : ∃ d, classKey unicode (name d) = k
        · obtain ⟨d, rfl⟩ := hnamed
          rw [support_names hname]
          exact h.ahead d fun heq => hk (by rw [heq])
        · rw [support_none hname _ hnamed]
          have hhalf := h.half
          omega
      obtain ⟨e, hlead, hkey⟩ := lead_of_majority hmajority
      obtain ⟨d, hkey', hlabel⟩ := class_of_lead hname hlead
      obtain rfl := hname.injective (hkey'.trans hkey)
      rw [hlead, Option.map_some, hlabel]

/-! ### Order and repetition -/

/-- Lessons with the same classes, in any order and any number of times in a lesson. -/
def Same (lessons lessons' : List (List ℤ)) : Prop := (lessons.map List.toFinset).Perm (lessons'.map List.toFinset)

theorem countP_same (h : Same lessons lessons') {p : List ℤ → Bool} (q : Finset ℤ → Bool) (hp : ∀ ids, p ids = q ids.toFinset) :
    lessons.countP p = lessons'.countP p := by
  have hmap : ∀ lessons : List (List ℤ), lessons.countP p = (lessons.map List.toFinset).countP q := by
    intro lessons
    rw [List.countP_map]
    exact List.countP_congr fun ids _ => by rw [hp ids]; rfl
  rw [hmap lessons, hmap lessons', h.countP_eq]

theorem Leads.same (h : Leads lessons c) (hsame : Same lessons lessons') : Leads lessons' c := by
  have hnaming : naming lessons = naming lessons' := countP_same hsame (fun ids => ids ≠ ∅) fun ids => by simp
  have hwith : ∀ d, lessonsWith lessons d = lessonsWith lessons' d := fun d =>
    countP_same hsame (fun ids => d ∈ ids) fun ids => by simp
  obtain ⟨henough, hhalf, hahead⟩ := h
  refine ⟨by rwa [← hnaming], by rwa [← hnaming, ← hwith], fun d hd => ?_⟩
  rw [← hwith, ← hwith]
  exact hahead d hd

theorem leads_same (hsame : Same lessons lessons') (c : ℤ) : Leads lessons c ↔ Leads lessons' c :=
  ⟨fun h => h.same hsame, fun h => h.same hsame.symm⟩

/-- **Both find the same class**: the one in more than half of the lessons and ahead of every other, whatever the order and the
repetitions. -/
theorem majority_agrees (hname : Naming unicode name) (lessons : List (List ℤ)) :
    (∀ c ≠ 0, majorityClassId lessons = c ↔ Leads lessons c) ∧
      (∀ n, majorityClassName unicode (named name lessons) = some n ↔ ∃ c, Leads lessons c ∧ n = trim (name c)) ∧
      ∀ lessons', Same lessons lessons' → majorityClassId lessons' = majorityClassId lessons ∧
        majorityClassName unicode (named name lessons') = majorityClassName unicode (named name lessons) := by
  refine ⟨fun c hc => majorityClassId_iff hc, fun n => majorityClassName_iff hname, fun lessons' hsame => ⟨?_, ?_⟩⟩
  · by_cases hnone : majorityClassId lessons' = 0
    · by_contra hne
      have hleads := (majorityClassId_iff (fun h => hne (hnone.trans h.symm))).mp (rfl : majorityClassId lessons = _)
      have hfound := (majorityClassId_iff (fun h => hne (hnone.trans h.symm))).mpr ((leads_same hsame _).mp hleads)
      exact hne hfound
    · have hleads := (majorityClassId_iff hnone).mp (rfl : majorityClassId lessons' = _)
      exact ((majorityClassId_iff hnone).mpr ((leads_same hsame _).mpr hleads)).symm
  · refine Option.ext fun n => ?_
    rw [majorityClassName_iff hname, majorityClassName_iff hname]
    exact exists_congr fun c => and_congr_left' (leads_same hsame c).symm

/-! ### Names in two cases -/

/-- A name of its own for each class. -/
def plainName (c : ℤ) : List Char := List.replicate (if 0 ≤ c then 2 * c.toNat + 1 else 2 * (-c).toNat) 'a'

theorem plainName_injective : Function.Injective plainName := by
  intro c d h
  have hlength := congrArg List.length h
  simp only [plainName, List.length_replicate] at hlength
  split at hlength <;> split at hlength <;> omega

theorem plainName_ne_nil (c : ℤ) : plainName c ≠ [] := by
  intro h
  have hlength := congrArg List.length h
  simp only [plainName, List.length_replicate, List.length_nil] at hlength
  split at hlength <;> omega

/-- Small letters are their own key. -/
theorem classKey_letters {name : List Char} (hne : name ≠ []) (h : ∀ c ∈ name, c = 'a') : classKey unicode name = name := by
  obtain ⟨n, rfl⟩ : ∃ n, name = List.replicate n 'a' := ⟨_, List.eq_replicate_of_mem h⟩
  have hn : n ≠ 0 := by rintro rfl; exact hne rfl
  have hletter : isSpace 'a' = false := by decide
  have htrim : trim (List.replicate n 'a') = List.replicate n 'a' :=
    trim_eq_self hletter hletter (by simp [List.head?_replicate, hn]) (by simp [List.getLast?_replicate, hn])
  rw [classKey, htrim, toLowerCase, if_pos (by simp [List.all_replicate]), List.map_replicate]
  rfl

theorem plainNaming (unicode : List Char → List Char) : Naming unicode plainName := by
  have hkey : ∀ c, classKey unicode (plainName c) = plainName c := fun c =>
    classKey_letters (plainName_ne_nil c) fun _ h => List.eq_of_mem_replicate h
  refine ⟨fun c d h => plainName_injective ?_, fun c => ?_⟩
  · simpa only [hkey] using h
  · rw [hkey]
    exact plainName_ne_nil c

/-- A class in both of two lessons, with another one beside it once. -/
theorem shared_lesson : majorityClassId [[5], [6, 5, 6]] = 5 ∧
    majorityClassName id (named plainName [[5], [6, 5, 6]]) = some (trim (plainName 5)) := by
  have hleads : Leads [[5], [6, 5, 6]] 5 := by
    refine ⟨by decide, by decide, fun d hd => ?_⟩
    by_cases h : d = 6
    · rw [h]
      decide
    · simp [lessonsWith, hd, h]
  obtain ⟨hid, hname, -⟩ := majority_agrees (plainNaming id) [[5], [6, 5, 6]]
  exact ⟨(hid 5 (by decide)).mpr hleads, (hname _).mpr ⟨5, hleads, rfl⟩⟩

/-- Two parallel classes that are written alike but for the case. -/
def twoCases (c : ℤ) : List Char := if c = 5 then ['5', 'A'] else if c = 6 then ['5', 'a'] else plainName c

theorem twoCases_injective : Function.Injective twoCases := by
  have hletters : ∀ c rest, plainName c ≠ '5' :: rest := by
    intro c rest h
    have hmem : '5' ∈ plainName c := h ▸ List.mem_cons_self
    exact absurd (List.eq_of_mem_replicate hmem) (by decide)
  intro c d h
  by_cases hc : c = 5
  · by_cases hd : d = 5
    · rw [hc, hd]
    · by_cases hd' : d = 6 <;> simp [twoCases, hc, hd, hd', (hletters _ _).symm] at h
  · by_cases hc' : c = 6
    · by_cases hd' : d = 6
      · rw [hc', hd']
      · by_cases hd : d = 5 <;> simp [twoCases, hc', hd, hd', (hletters _ _).symm] at h
    · by_cases hd : d = 5
      · simp [twoCases, hc, hc', hd, hletters] at h
      · by_cases hd' : d = 6
        · simp [twoCases, hc, hc', hd', hletters] at h
        · simp only [twoCases, hc, hc', hd, hd', if_false] at h
          exact plainName_injective h

/-- **Two classes whose names differ in case only are taken for one.** -/
theorem merged_by_case : ¬ ∀ (unicode : List Char → List Char) (name : ℤ → List Char), Function.Injective name →
    ∀ lessons n, majorityClassName unicode (named name lessons) = some n →
      ∃ c, Leads lessons c ∧ classKey unicode n = classKey unicode (name c) := by
  intro h
  obtain ⟨c, hleads, -⟩ := h id twoCases twoCases_injective [[5], [6]] ['5', 'A'] (by decide +kernel)
  have hhalf := hleads.half
  have hfive := hleads.ahead
  have hmost : lessonsWith [[5], [6]] c ≤ 1 := by
    simp only [lessonsWith, List.countP_cons, List.countP_nil, List.mem_singleton]
    split <;> split <;> simp_all
  have hnaming : naming [[5], [6]] = 2 := by decide
  omega

end Pokyh.Account.Majority

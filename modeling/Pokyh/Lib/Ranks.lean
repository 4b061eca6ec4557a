import Mathlib.Data.Finset.Card
import Mathlib.Logic.Relation
import Pokyh.Lib.Runs
import Pokyh.Lib.Tables

/-!
# Lib — Ranks

Ranks of the nodes of a graph by a search in depth that remembers what it has ranked: a node's rank is one more than that of its highest
parent.  The graph may have cycles; a node that is being visited counts with the rank it has so far.

* `rankOf_spec`: a call ends, and what it adds.
* `rankAll_above`: **a node ranks above each of its parents, unless that parent leads back to it.**
-/

namespace Pokyh.Lib

variable {α : Type*} [DecidableEq α] (parents : α → List α)

/-- The rank of a node, and all ranks after; none when the fuel gives out. -/
def rankOf : ℕ → List α → Table α ℕ → α → Option (ℕ × Table α ℕ)
  | 0, _, _, _ => none
  | fuel + 1, visiting, ranks, name =>
      match ranks.lookup name with
      | none => some (0, ranks)
      | some rank =>
          if 0 < rank ∨ name ∈ visiting then some (rank, ranks)
          else
            (run (fun (found : ℕ × Table α ℕ) parent =>
              (rankOf fuel (name :: visiting) found.2 parent).map fun above => (max found.1 (above.1 + 1), above.2)) (0, ranks)
              (parents name)).map fun found => (found.1, found.2.insert name found.1)

/-- The names, all of rank 0. -/
def unranked (names : List α) : Table α ℕ := names.foldr (fun name ranks => ranks.insert name 0) ∅

/-- The ranks of all names. -/
def rankAll (names : List α) : Option (Table α ℕ) :=
  run (fun ranks name => (rankOf parents (names.length + 1) [] ranks name).map Prod.snd) (unranked names) names

/-- One node leads to another, from child to parent. -/
def Leads : α → α → Prop := Relation.ReflTransGen fun child parent => parent ∈ parents child

variable {parents}

/-- Ranks on the way: what has a rank is above its parents. -/
structure Ranked (parents : α → List α) (names : Finset α) (ranks : Table α ℕ) : Prop where
  known : ∀ n, (ranks.lookup n).isSome ↔ n ∈ names
  root : ∀ n r, ranks.lookup n = some r → parents n = [] → r = 0
  above : ∀ c r, ranks.lookup c = some r → 0 < r → ∀ p ∈ parents c,
    Leads parents p c ∨ ∃ r', ranks.lookup p = some r' ∧ r' < r ∧ (0 < r' ∨ parents p = [])

/-- A name that has got its rank: it keeps it. -/
def Settled (parents : α → List α) (ranks : Table α ℕ) (n : α) (r : ℕ) : Prop :=
  ranks.lookup n = some r ∧ (0 < r ∨ parents n = [])

/-- Later ranks: what had one keeps it. -/
def Extends (ranks ranks' : Table α ℕ) : Prop := ∀ n r, ranks.lookup n = some r → 0 < r → ranks'.lookup n = some r

theorem Settled.extend {names : Finset α} {ranks ranks' : Table α ℕ} {n : α} {r : ℕ} (h : Settled parents ranks n r)
    (hranks : Ranked parents names ranks) (hranked : Ranked parents names ranks') (hext : Extends ranks ranks') :
    Settled parents ranks' n r := by
  refine ⟨?_, h.2⟩
  rcases h.2 with hpos | hroot
  · exact hext n r h.1 hpos
  · have hzero : r = 0 := hranks.root n r h.1 hroot
    have hname : n ∈ names := (hranks.known n).mp (by simp [h.1])
    obtain ⟨r', hr'⟩ := Option.isSome_iff_exists.mp ((hranked.known n).mpr hname)
    rw [hr', hranked.root n r' hr' hroot, hzero]

/-- What the loop over a node's parents has found so far. -/
structure Found (parents : α → List α) (names : Finset α) (visiting : List α) (name : α) (ranks : Table α ℕ) (done : List α)
    (found : ℕ × Table α ℕ) : Prop where
  ranked : Ranked parents names found.2
  ext : Extends ranks found.2
  zero : ∀ v ∈ name :: visiting, found.2.lookup v = some 0
  above : ∀ p ∈ done, Leads parents p name ∨ ∃ r, Settled parents found.2 p r ∧ r < found.1
  pos : done ≠ [] → 0 < found.1
  none : done = [] → found.1 = 0

/-- What a call gives. -/
structure Spec (parents : α → List α) (names : Finset α) (visiting : List α) (ranks : Table α ℕ) (name : α) (answer : ℕ × Table α ℕ) :
    Prop where
  ranked : Ranked parents names answer.2
  ext : Extends ranks answer.2
  zero : ∀ v ∈ visiting, answer.2.lookup v = some 0
  settled : name ∈ names → name ∉ visiting → Settled parents answer.2 name answer.1

/-- What is found of one more parent. -/
theorem Found.next {names : Finset α} {visiting done : List α} {name parent : α} {ranks : Table α ℕ} {found above : ℕ × Table α ℕ}
    (h : Found parents names visiting name ranks done found) (hparent : parent ∈ names)
    (hleads : ∀ v ∈ name :: visiting, Leads parents v name)
    (hspec : Spec parents names (name :: visiting) found.2 parent above) :
    Found parents names visiting name ranks (done ++ [parent]) (max found.1 (above.1 + 1), above.2) := by
  refine ⟨hspec.ranked, fun n r hr hpos => hspec.ext n r (h.ext n r hr hpos) hpos, hspec.zero, ?_, ?_, by simp⟩
  · intro p hp
    rcases List.mem_append.mp hp with hold | hnew
    · rcases h.above p hold with hcycle | ⟨r, hr, hlt⟩
      · exact .inl hcycle
      · exact .inr ⟨r, hr.extend h.ranked hspec.ranked hspec.ext, lt_max_of_lt_left hlt⟩
    · rw [List.mem_singleton.mp hnew]
      by_cases hvisited : parent ∈ name :: visiting
      · exact .inl (hleads parent hvisited)
      · exact .inr ⟨above.1, hspec.settled hparent hvisited, lt_max_of_lt_right (Nat.lt_succ_self _)⟩
  · exact fun _ => lt_max_of_lt_right (Nat.succ_pos _)

/-- A node whose parents are done has its rank. -/
theorem Found.finish {names : Finset α} {visiting : List α} {name : α} {ranks : Table α ℕ} {found : ℕ × Table α ℕ}
    (h : Found parents names visiting name ranks (parents name) found) (hname : name ∈ names) (hnew : name ∉ visiting)
    (hzero : ranks.lookup name = some 0) :
    Spec parents names visiting ranks name (found.1, found.2.insert name found.1) := by
  have hroot : parents name = [] → found.1 = 0 := h.none
  refine ⟨⟨?_, ?_, ?_⟩, ?_, ?_, ?_⟩
  · intro n
    rw [Table.lookup_insert_of, ← h.ranked.known n]
    split
    · next heq =>
        rw [heq, h.zero name List.mem_cons_self]
        rfl
    · rfl
  · intro n r hr hnone
    rw [Table.lookup_insert_of] at hr
    split at hr
    · next heq =>
        cases hr
        exact hroot (heq ▸ hnone)
    · exact h.ranked.root n r hr hnone
  · intro c r hr hpos p hp
    rw [Table.lookup_insert_of] at hr
    split at hr
    · next heq =>
        subst heq
        cases hr
        rcases h.above p hp with hcycle | ⟨r', ⟨hr', hdone⟩, hlt⟩
        · exact .inl hcycle
        by_cases hself : p = c
        · exact .inl (hself ▸ Relation.ReflTransGen.refl)
        · exact .inr ⟨r', by rw [Table.lookup_insert_of, if_neg hself, hr'], hlt, hdone⟩
    · rcases h.ranked.above c r hr hpos p hp with hcycle | ⟨r', hr', hlt, hdone⟩
      · exact .inl hcycle
      refine .inr ⟨r', ?_, hlt, hdone⟩
      rw [Table.lookup_insert_of]
      split
      · next heq =>
          -- The node was at 0 till now: as a parent with a rank it has no parents itself.
          subst heq
          have hr0 : r' = 0 := Option.some.inj (hr'.symm.trans (h.zero p List.mem_cons_self))
          rw [hroot (hdone.resolve_left (by omega)), hr0]
      · exact hr'
  · intro n r hr hpos
    rw [Table.lookup_insert_of, if_neg]
    · exact h.ext n r hr hpos
    · rintro rfl
      rw [hzero] at hr
      cases hr
      exact absurd hpos (lt_irrefl _)
  · intro v hv
    have hother : v ≠ name := by
      rintro rfl
      exact hnew hv
    rw [Table.lookup_insert_of, if_neg hother]
    exact h.zero v (List.mem_cons_of_mem _ hv)
  · intro _ _
    refine ⟨by rw [Table.lookup_insert_of, if_pos rfl], ?_⟩
    by_cases hnone : parents name = []
    · exact .inr hnone
    · exact .inl (h.pos hnone)

/-- **A call ends, and ranks its node** above the parents that do not lead back to it: it never visits a node within its own visit. -/
theorem rankOf_spec {names : Finset α} (hclosed : ∀ c ∈ names, ∀ p ∈ parents c, p ∈ names) {fuel : ℕ} {visiting : List α}
    {ranks : Table α ℕ} {name : α} (hranked : Ranked parents names ranks)
    (hvisiting : ∀ v ∈ visiting, ranks.lookup v = some 0 ∧ Leads parents v name) (hnodup : visiting.Nodup)
    (hfuel : names.card < fuel + visiting.length) :
    ∃ answer, rankOf parents fuel visiting ranks name = some answer ∧ Spec parents names visiting ranks name answer := by
  induction fuel generalizing visiting ranks name with
  | zero =>
      have hsub : visiting.toFinset ⊆ names := by
        intro v hv
        exact (hranked.known v).mp (by rw [(hvisiting v (List.mem_toFinset.mp hv)).1]; rfl)
      have hcard := Finset.card_le_card hsub
      rw [List.toFinset_card_of_nodup hnodup] at hcard
      omega
  | succ fuel ih =>
      rw [rankOf]
      cases hlookup : ranks.lookup name with
      | none =>
          refine ⟨_, rfl, hranked, fun _ _ hr _ => hr, fun v hv => (hvisiting v hv).1, fun hname => ?_⟩
          have hsome := (hranked.known name).mpr hname
          rw [hlookup] at hsome
          cases hsome
      | some rank =>
          have hname : name ∈ names := (hranked.known name).mp (by rw [hlookup]; rfl)
          dsimp only
          split
          · next hknown =>
              exact ⟨_, rfl, hranked, fun _ _ hr _ => hr, fun v hv => (hvisiting v hv).1,
                fun _ hnew => ⟨hlookup, .inl (hknown.resolve_right hnew)⟩⟩
          · next hknown =>
              obtain ⟨hpos, hnew⟩ := not_or.mp hknown
              have hzero : ranks.lookup name = some 0 := by rw [hlookup, Nat.le_zero.mp (not_lt.mp hpos)]
              have hleads : ∀ v ∈ name :: visiting, Leads parents v name := by
                intro v hv
                rcases List.mem_cons.mp hv with rfl | hv
                · exact Relation.ReflTransGen.refl
                · exact (hvisiting v hv).2
              have hloop : ∃ found, run (fun (found : ℕ × Table α ℕ) parent => (rankOf parents fuel (name :: visiting) found.2 parent).map
                  fun above => (max found.1 (above.1 + 1), above.2)) (0, ranks) (parents name) = some found ∧
                  Found parents names visiting name ranks (parents name) found := run_total ?_ ?_
              · obtain ⟨found, hfound, hf⟩ := hloop
                exact ⟨_, by rw [hfound]; rfl, hf.finish hname hnew hzero⟩
              · refine ⟨hranked, fun _ _ hr _ => hr, fun v hv => ?_, by simp, by simp, fun _ => rfl⟩
                rcases List.mem_cons.mp hv with rfl | hv
                · exact hzero
                · exact (hvisiting v hv).1
              · intro done parent rest found hsplit hf
                have hparent : parent ∈ parents name := by simp [hsplit]
                obtain ⟨above, habove, hspec⟩ := ih hf.ranked (fun v hv => ⟨hf.zero v hv, (hleads v hv).tail hparent⟩)
                  (List.nodup_cons.mpr ⟨hnew, hnodup⟩) (by rw [List.length_cons]; omega)
                exact ⟨_, by rw [habove]; rfl, hf.next (hclosed name hname parent hparent) hleads hspec⟩

theorem lookup_unranked (names : List α) (n : α) : (unranked names).lookup n = if n ∈ names then some 0 else none := by
  induction names with
  | nil => rfl
  | cons name names ih =>
      rw [unranked, List.foldr_cons, Table.lookup_insert_of]
      by_cases hn : n = name
      · rw [if_pos hn, if_pos (by simp [hn])]
      · rw [if_neg hn]
        refine ih.trans ?_
        simp [hn]

/-- **Every name gets a rank, above that of each of its parents, unless that parent leads back to it.** -/
theorem rankAll_above (names : List α) (hnodup : names.Nodup) (hclosed : ∀ c ∈ names, ∀ p ∈ parents c, p ∈ names) :
    ∃ ranks, rankAll parents names = some ranks ∧ (∀ n, (ranks.lookup n).isSome ↔ n ∈ names) ∧
      ∀ c ∈ names, ∀ p ∈ parents c, Leads parents p c ∨
        ∃ rank above, ranks.lookup p = some rank ∧ ranks.lookup c = some above ∧ rank < above := by
  have hmem : ∀ n, n ∈ names.toFinset ↔ n ∈ names := fun n => List.mem_toFinset
  have hstart : Ranked parents names.toFinset (unranked names) := by
    refine ⟨fun n => ?_, fun n r hr _ => ?_, fun c r hr hpos => ?_⟩
    · rw [lookup_unranked, hmem]
      split <;> simp_all
    · rw [lookup_unranked] at hr
      split at hr <;> cases hr
      rfl
    · rw [lookup_unranked] at hr
      split at hr <;> cases hr
      exact absurd hpos (lt_irrefl _)
  have hloop : ∃ ranks, rankAll parents names = some ranks ∧
      Ranked parents names.toFinset ranks ∧ ∀ n ∈ names, ∃ r, Settled parents ranks n r := by
    refine run_total
      (P := fun done ranks => Ranked parents names.toFinset ranks ∧ ∀ n ∈ done, ∃ r, Settled parents ranks n r) ⟨hstart, by simp⟩ ?_
    intro done name rest ranks hsplit hranks
    have hname : name ∈ names := by simp [hsplit]
    have hfuel : names.toFinset.card < names.length + 1 + ([] : List α).length := by
      rw [List.toFinset_card_of_nodup hnodup, List.length_nil, Nat.add_zero]
      exact Nat.lt_succ_self _
    obtain ⟨answer, hanswer, hspec⟩ := rankOf_spec (fun c hc p hp => (hmem p).mpr (hclosed c ((hmem c).mp hc) p hp))
      hranks.1 (by simp) .nil hfuel
    refine ⟨_, by rw [hanswer]; rfl, hspec.ranked, ?_⟩
    intro n hn
    rcases List.mem_append.mp hn with hold | hnew
    · obtain ⟨r, hr⟩ := hranks.2 n hold
      exact ⟨r, hr.extend hranks.1 hspec.ranked hspec.ext⟩
    · rw [List.mem_singleton.mp hnew]
      exact ⟨_, hspec.settled ((hmem name).mpr hname) List.not_mem_nil⟩
  obtain ⟨ranks, hranks, hranked, hdone⟩ := hloop
  refine ⟨ranks, hranks, fun n => (hranked.known n).trans (hmem n), ?_⟩
  intro c hc p hp
  obtain ⟨r, hr, hpos | hroot⟩ := hdone c hc
  · rcases hranked.above c r hr hpos p hp with hcycle | ⟨r', hr', hlt, -⟩
    · exact .inl hcycle
    · exact .inr ⟨r', r, hr', hr, hlt⟩
  · rw [hroot] at hp
    cases hp

end Pokyh.Lib

import Mathlib.Data.List.Count
import Mathlib.Data.List.Sort

/-!
# Lib — Votes

Votes counted by key as a JavaScript `Map` counts them, and the key that leads them.  A ballot names keys with labels; it counts once
for each key, and a key keeps the label it came with first.

* `Tallied`: what a count of votes says of them; `tallied_votes`, by induction over the votes.
* `lead_iff`: who leads a count, whatever order its entries have.
* `lead_tallyOf`, `lead_of_majority`: **the lead of the ballots is their strict majority**, ahead of every other.
-/

namespace Pokyh.Lib.Votes

variable {κ ν : Type*} [DecidableEq κ]

/-- A key with the label it came with first. -/
structure Count (κ ν : Type*) where
  key : κ
  label : ν
  votes : ℕ

/-- The first vote for each key. -/
def firstOfEach : List (κ × ν) → List (κ × ν)
  | [] => []
  | v :: vs => v :: (firstOfEach vs).filter (·.1 ≠ v.1)

def addVote (tally : List (Count κ ν)) (v : κ × ν) : List (Count κ ν) :=
  if tally.any (·.key = v.1) then tally.map fun e => if e.key = v.1 then { e with votes := e.votes + 1 } else e
  else tally ++ [⟨v.1, v.2, 1⟩]

def tallyOf (ballots : List (List (κ × ν))) : List (Count κ ν) :=
  ballots.foldl (fun tally ballot => (firstOfEach ballot).foldl addVote tally) []

/-- The entry in more than half of the ballots and ahead of the next one. -/
def lead (ballots : ℕ) (tally : List (Count κ ν)) : Option (Count κ ν) :=
  match tally.insertionSort fun a b => b.votes ≤ a.votes with
  | [] => none
  | first :: rest =>
    if first.votes * 2 ≤ ballots then none
    else if rest.head?.any fun second => second.votes = first.votes then none
    else some first

/-! ### Counting -/

/-- What a count says of the votes it was made from. -/
structure Tallied (vs : List (κ × ν)) (tally : List (Count κ ν)) : Prop where
  nodup : (tally.map (·.key)).Nodup
  votes : ∀ e ∈ tally, e.votes = vs.countP (·.1 = e.key)
  label : ∀ e ∈ tally, (e.key, e.label) ∈ vs
  complete : ∀ v ∈ vs, v.1 ∈ tally.map (·.key)

theorem map_key_addVote (tally : List (Count κ ν)) (v : κ × ν) :
    (addVote tally v).map (·.key) = if v.1 ∈ tally.map (·.key) then tally.map (·.key) else tally.map (·.key) ++ [v.1] := by
  have hany : (tally.any (·.key = v.1) = true) ↔ v.1 ∈ tally.map (·.key) := by simp
  unfold addVote
  by_cases h : v.1 ∈ tally.map (·.key)
  · rw [if_pos (hany.mpr h), if_pos h, List.map_map]
    refine List.map_congr_left fun e _ => ?_
    dsimp only [Function.comp]
    split <;> rfl
  · rw [if_neg fun hmem => h (hany.mp hmem), if_neg h, List.map_append]
    rfl

/-- One more vote. -/
theorem Tallied.addVote {vs : List (κ × ν)} {tally : List (Count κ ν)} (h : Tallied vs tally) (v : κ × ν) :
    Tallied (vs ++ [v]) (addVote tally v) := by
  have hkeys := map_key_addVote tally v
  by_cases hmem : v.1 ∈ tally.map (·.key)
  · rw [if_pos hmem] at hkeys
    have heq : Votes.addVote tally v = tally.map fun e => if e.key = v.1 then { e with votes := e.votes + 1 } else e := by
      rw [Votes.addVote, if_pos (by simpa using hmem)]
    refine ⟨by rw [hkeys]; exact h.nodup, fun e he => ?_, fun e he => ?_, fun w hw => ?_⟩
    · rw [heq] at he
      obtain ⟨old, hold, rfl⟩ := List.mem_map.mp he
      have hvotes := h.votes old hold
      rw [List.countP_append, List.countP_singleton]
      by_cases hkey : old.key = v.1
      · rw [hkey] at hvotes
        simp [hvotes, hkey]
      · simp [hvotes, hkey, Ne.symm hkey]
    · rw [heq] at he
      obtain ⟨old, hold, rfl⟩ := List.mem_map.mp he
      refine List.mem_append_left _ ?_
      split <;> exact h.label old hold
    · rw [hkeys]
      rcases List.mem_append.mp hw with hw | hw
      · exact h.complete w hw
      · rwa [List.mem_singleton.mp hw]
  · rw [if_neg hmem] at hkeys
    have heq : Votes.addVote tally v = tally ++ [⟨v.1, v.2, 1⟩] := by
      rw [Votes.addVote, if_neg (by simpa using hmem)]
    have hnew : ∀ w ∈ vs, w.1 ≠ v.1 := fun w hw hkey => hmem (hkey ▸ h.complete w hw)
    refine ⟨?_, fun e he => ?_, fun e he => ?_, fun w hw => ?_⟩
    · rw [hkeys]
      exact List.nodup_append.mpr ⟨h.nodup, List.nodup_singleton _, fun a ha b hb => by
        rw [List.mem_singleton.mp hb]
        exact fun hab => hmem (hab ▸ ha)⟩
    · rw [List.countP_append, List.countP_singleton]
      rcases List.mem_append.mp (heq ▸ he) with he | he
      · have hkey : v.1 ≠ e.key := fun hkey => hmem (hkey ▸ List.mem_map_of_mem he)
        simp [h.votes e he, hkey]
      · rw [List.mem_singleton.mp he]
        have hnone : vs.countP (fun w => w.1 = v.1) = 0 := List.countP_eq_zero.mpr fun w hw => by simpa using hnew w hw
        simp [hnone]
    · rcases List.mem_append.mp (heq ▸ he) with he | he
      · exact List.mem_append_left _ (h.label e he)
      · rw [List.mem_singleton.mp he]
        exact List.mem_append_right _ List.mem_cons_self
    · rw [hkeys]
      rcases List.mem_append.mp hw with hw | hw
      · exact List.mem_append_left _ (h.complete w hw)
      · exact List.mem_append_right _ (by rw [List.mem_singleton.mp hw]; exact List.mem_singleton_self _)

theorem tallied_foldl {vs : List (κ × ν)} {tally : List (Count κ ν)} (h : Tallied vs tally) (vs' : List (κ × ν)) :
    Tallied (vs ++ vs') (vs'.foldl addVote tally) := by
  induction vs' generalizing vs tally with
  | nil => rwa [List.append_nil]
  | cons v vs' ih =>
      have hnext := ih (h.addVote v)
      rwa [List.append_assoc] at hnext

theorem tallied_nil : Tallied ([] : List (κ × ν)) [] :=
  ⟨List.nodup_nil, fun _ he => absurd he List.not_mem_nil, fun _ he => absurd he List.not_mem_nil, fun _ he => absurd he List.not_mem_nil⟩

/-- **The count of some ballots** is that of their votes. -/
theorem tallied_tallyOf (ballots : List (List (κ × ν))) : Tallied (ballots.flatMap firstOfEach) (tallyOf ballots) := by
  have hrun : ∀ (ballots : List (List (κ × ν))) (vs : List (κ × ν)) (tally : List (Count κ ν)), Tallied vs tally →
      Tallied (vs ++ ballots.flatMap firstOfEach) (ballots.foldl (fun tally ballot => (firstOfEach ballot).foldl addVote tally) tally) := by
    intro ballots
    induction ballots with
    | nil =>
        intro vs tally h
        rwa [List.flatMap_nil, List.append_nil]
    | cons ballot ballots ih =>
        intro vs tally h
        have hnext := ih _ _ (tallied_foldl h (firstOfEach ballot))
        rwa [List.append_assoc] at hnext
  exact hrun ballots [] [] tallied_nil

/-! ### Ballots -/

theorem mem_firstOfEach {vs : List (κ × ν)} {v : κ × ν} (h : v ∈ firstOfEach vs) : v ∈ vs := by
  induction vs with
  | nil => exact h
  | cons w vs ih =>
      rcases List.mem_cons.mp h with rfl | h
      · exact List.mem_cons_self
      · exact List.mem_cons_of_mem _ (ih (List.mem_filter.mp h).1)

/-- A ballot counts once for each of its keys. -/
theorem countP_firstOfEach (vs : List (κ × ν)) (k : κ) :
    (firstOfEach vs).countP (·.1 = k) = if k ∈ vs.map (·.1) then 1 else 0 := by
  induction vs with
  | nil => rfl
  | cons v vs ih =>
      rw [firstOfEach, List.countP_cons, List.countP_filter]
      by_cases hkey : v.1 = k
      · have hnone : (firstOfEach vs).countP (fun w => decide (w.1 = k) && decide (w.1 ≠ v.1)) = 0 :=
          List.countP_eq_zero.mpr fun w _ => by simp [hkey]
        rw [hnone]
        simp [hkey]
      · have hsame : (firstOfEach vs).countP (fun w => decide (w.1 = k) && decide (w.1 ≠ v.1)) =
            (firstOfEach vs).countP (·.1 = k) := by
          refine List.countP_congr fun w _ => ?_
          simp only [Bool.and_eq_true, decide_eq_true_eq]
          exact ⟨fun h => h.1, fun h => ⟨h, fun heq => hkey (heq ▸ h)⟩⟩
        rw [hsame, ih, List.map_cons]
        simp [hkey, Ne.symm hkey, -List.mem_map]

/-- The ballots that name a key. -/
def support (ballots : List (List (κ × ν))) (k : κ) : ℕ := ballots.countP fun ballot => k ∈ ballot.map (·.1)

theorem countP_votes (ballots : List (List (κ × ν))) (k : κ) :
    (ballots.flatMap firstOfEach).countP (·.1 = k) = support ballots k := by
  induction ballots with
  | nil => rfl
  | cons ballot ballots ih =>
      rw [List.flatMap_cons, List.countP_append, countP_firstOfEach, ih, support, support, List.countP_cons, Nat.add_comm]
      simp only [decide_eq_true_eq]

/-! ### The lead -/

variable {tally : List (Count κ ν)} {ballots : List (List (κ × ν))} {n : ℕ} {e : Count κ ν}

omit [DecidableEq κ] in
/-- **Who leads a count**: an entry in more than half of the ballots and ahead of every other. -/
theorem lead_iff (hnodup : (tally.map (·.key)).Nodup) :
    lead n tally = some e ↔ e ∈ tally ∧ n < 2 * e.votes ∧ ∀ e' ∈ tally, e'.key ≠ e.key → e'.votes < e.votes := by
  have hperm := List.perm_insertionSort (fun a b : Count κ ν => b.votes ≤ a.votes) tally
  have hsorted : (tally.insertionSort fun a b => b.votes ≤ a.votes).Pairwise fun a b => b.votes ≤ a.votes := by
    have htotal : Std.Total fun a b : Count κ ν => b.votes ≤ a.votes := ⟨fun a b => Nat.le_total _ _⟩
    have htrans : IsTrans (Count κ ν) fun a b => b.votes ≤ a.votes := ⟨fun _ _ _ h h' => Nat.le_trans h' h⟩
    exact List.pairwise_insertionSort _ tally
  have hkeys := (hperm.map (·.key)).nodup_iff.mpr hnodup
  unfold lead
  cases hsort : tally.insertionSort fun a b => b.votes ≤ a.votes with
  | nil =>
      rw [hsort] at hperm
      simp [← hperm.nil_eq]
  | cons first rest =>
      rw [hsort] at hperm hsorted hkeys
      obtain ⟨htop, hrest⟩ := List.pairwise_cons.mp hsorted
      obtain ⟨hfirst, -⟩ := List.nodup_cons.mp hkeys
      have hmem : ∀ e', e' ∈ tally ↔ e' = first ∨ e' ∈ rest := fun e' => by rw [← hperm.mem_iff, List.mem_cons]
      have hother : ∀ e' ∈ rest, e'.key ≠ first.key := fun e' he' heq => hfirst (List.mem_map.mpr ⟨e', he', heq⟩)
      -- the second entry is behind the first one as soon as every other is
      have hahead : ¬ (rest.head?.any fun second => second.votes = first.votes) = true ↔ ∀ e' ∈ rest, e'.votes < first.votes := by
        cases rest with
        | nil => simp
        | cons second rest =>
            have hsecond := htop second List.mem_cons_self
            simp only [List.head?_cons, Option.any_some, decide_eq_true_eq]
            constructor
            · intro hne e' he'
              have hle : e'.votes ≤ second.votes := by
                rcases List.mem_cons.mp he' with rfl | he'
                · exact Nat.le_refl _
                · exact (List.pairwise_cons.mp hrest).1 e' he'
              omega
            · intro hall
              exact Nat.ne_of_lt (hall second List.mem_cons_self)
      dsimp only
      split
      · rename_i hhalf
        simp only [reduceCtorEq, false_iff]
        rintro ⟨he, hmajority, hbest⟩
        rcases (hmem e).mp he with rfl | he
        · omega
        · have hlt := hbest first ((hmem first).mpr (.inl rfl)) (Ne.symm (hother e he))
          have hle := htop e he
          omega
      · rename_i hhalf
        split
        · rename_i htie
          simp only [reduceCtorEq, false_iff]
          rintro ⟨he, hmajority, hbest⟩
          rcases (hmem e).mp he with rfl | he
          · exact hahead.mpr (fun e' he' => hbest e' ((hmem e').mpr (.inr he')) (hother e' he')) htie
          · have hlt := hbest first ((hmem first).mpr (.inl rfl)) (Ne.symm (hother e he))
            have hle := htop e he
            omega
        · rename_i htie
          constructor
          · intro heq
            obtain rfl := Option.some.inj heq
            refine ⟨(hmem first).mpr (.inl rfl), by omega, fun e' he' hkey => ?_⟩
            rcases (hmem e').mp he' with rfl | he'
            · exact absurd rfl hkey
            · exact hahead.mp htie e' he'
          · rintro ⟨he, hmajority, hbest⟩
            rcases (hmem e).mp he with rfl | he
            · rfl
            · have hlt := hbest first ((hmem first).mpr (.inl rfl)) (Ne.symm (hother e he))
              have hle := htop e he
              omega

/-- A key in more than half of `n` ballots and ahead of every other. -/
def Majority (n : ℕ) (ballots : List (List (κ × ν))) (k : κ) : Prop :=
  n < 2 * support ballots k ∧ ∀ k' ≠ k, support ballots k' < support ballots k

theorem votes_eq (he : e ∈ tallyOf ballots) : e.votes = support ballots e.key := by
  rw [(tallied_tallyOf ballots).votes e he, countP_votes]

/-- **The lead of the ballots is their majority**, with a label that it came with. -/
theorem lead_tallyOf (h : lead n (tallyOf ballots) = some e) :
    Majority n ballots e.key ∧ ∃ ballot ∈ ballots, (e.key, e.label) ∈ ballot := by
  have htallied := tallied_tallyOf ballots
  obtain ⟨he, hhalf, hbest⟩ := (lead_iff htallied.nodup).mp h
  obtain ⟨ballot, hballot, hvote⟩ := List.mem_flatMap.mp (htallied.label e he)
  refine ⟨⟨by rwa [← votes_eq he], fun k hk => ?_⟩, ballot, hballot, mem_firstOfEach hvote⟩
  rw [← votes_eq he]
  by_cases hmem : k ∈ (tallyOf ballots).map (·.key)
  · obtain ⟨e', he', rfl⟩ := List.mem_map.mp hmem
    rw [← votes_eq he']
    exact hbest e' he' hk
  · -- a key without an entry has no vote
    have hnone : support ballots k = 0 := by
      rw [← countP_votes, List.countP_eq_zero]
      intro v hv hkey
      exact hmem (by simpa [← of_decide_eq_true hkey] using htallied.complete v hv)
    omega

theorem lead_of_majority {k : κ} (h : Majority n ballots k) : ∃ e, lead n (tallyOf ballots) = some e ∧ e.key = k := by
  have htallied := tallied_tallyOf ballots
  obtain ⟨v, hv, hkey⟩ : ∃ v ∈ ballots.flatMap firstOfEach, v.1 = k := by
    by_contra hnone
    have hzero : support ballots k = 0 := by
      rw [← countP_votes, List.countP_eq_zero]
      exact fun v hv hkey => hnone ⟨v, hv, of_decide_eq_true hkey⟩
    have hhalf := h.1
    omega
  obtain ⟨e, he, hek⟩ := List.mem_map.mp (htallied.complete v hv)
  have hk : e.key = k := hek.trans hkey
  refine ⟨e, (lead_iff htallied.nodup).mpr ⟨he, ?_, fun e' he' hne => ?_⟩, hk⟩
  · rw [votes_eq he, hk]
    exact h.1
  · rw [votes_eq he, votes_eq he', hk]
    exact h.2 e'.key (hk ▸ hne)

end Pokyh.Lib.Votes

import Pokyh.Cluster.Replicator
import Pokyh.Lib.Calls
import Pokyh.Lib.Json
import Mathlib.Data.List.Perm.Basic

/-!
# Cluster — Delivery

How a set of rows is delivered to a peer (`deliver`, `pushChunk`).  Rows that came from elsewhere are offered by version first, and the
peer says which it wants; those and the rows changed here are loaded, and pushed in packages.  Every call may fail, and then the
delivery as a whole throws.

* `applyPush_batches`: the peer goes through a package in the order in which it was made up, and answers with one result a row.
* `deliver_accounts`: **a delivery that returns has settled or kept every row**, each once, and whatever it pushes it pushes in the
  order the rows were read in.
* `deliver_packages`: no package is empty, and one of more than one row is no larger than half a message.
* `deliver_drained`: only the last call says that nothing is left.
-/

namespace Pokyh.Cluster
open Pokyh.Lib

/-- A row by its table, key hash and version. -/
structure OfferItem where
  table : String
  hash : String
  version : ℕ
  origin : String
  deleted : Bool
  deriving DecidableEq, Repr

structure Outgoing where
  entry : Entry
  item : WireItem
  size : ℕ
  deriving DecidableEq, Repr

inductive DeliveryCall where
  | offer (items : List OfferItem)
  | recordImplicitDeletion (entry : Entry)
  | push (chunk : List Outgoing) (drained : Bool)
  deriving DecidableEq, Repr

/-- What a row turns out to be when it is loaded. -/
inductive Loaded where
  | gone
  | unencodable
  | row (encoded : List WireValue)

/-- What a delivery meets: whether a table's rows can be loaded and what they turn out to be, whether a deletion can be recorded, and
the answers of the peer to its calls of either kind, by their number. -/
structure Encounters where
  loads : TableInfo → Bool
  load : Entry → Loaded
  records : Entry → Bool
  want : ℕ → Option (List ℤ)
  results : ℕ → Option String

/-- `CLUSTER_MAX_MESSAGE_BYTES`, within its bounds. -/
structure MessageLimit where
  bytes : ℕ
  ge : 1024 * 1024 ≤ bytes
  le : bytes ≤ 64 * 1024 * 1024

structure Delivery where
  /-- Entries the peer has taken responsibility for (or declined as known). -/
  settled : List Entry
  /-- Entries that could not be delivered this time and have to be tried again. -/
  unsettled : List Entry
  /-- True when the last call already told the peer that nothing is left. -/
  announcedDrained : Bool
  deriving DecidableEq, Repr

/-- The length of a value's JSON text. -/
def WireValue.jsonLength : WireValue → ℕ
  | .null => 4
  | .string text => (quote (units text)).length
  | .number text => text.length
  | .boolean true => 4
  | .boolean false => 5

/-- `JSON.stringify(encoded).length` -/
def encodedLength (encoded : List WireValue) : ℕ := 2 + (encoded.map WireValue.jsonLength).sum + (encoded.length - 1)

def Entry.offerItem (entry : Entry) : OfferItem := ⟨entry.table.name, entry.hash, entry.version, entry.origin, entry.deleted⟩

def Entry.wireItem (entry : Entry) (r : Option (List WireValue)) : WireItem :=
  ⟨entry.hash, entry.key, entry.version, entry.origin, entry.deleted, r⟩

/-- A row that no message has room for: `size > maxMessageBytes - 65_536`, over the integers. -/
def tooLarge (limit : MessageLimit) (size : ℕ) : Bool := limit.bytes < 65536 + size

/-- The rows of a package by table, as long as the table stays the same. -/
def pushBatches : List Outgoing → List WireTableBatch
  | [] => []
  | outgoing :: chunk =>
      match pushBatches chunk with
      | [] => [⟨outgoing.entry.table.name, outgoing.entry.table.columns, [outgoing.item]⟩]
      | first :: batches =>
          if first.t = outgoing.entry.table.name then
            ⟨outgoing.entry.table.name, outgoing.entry.table.columns, outgoing.item :: first.items⟩ :: batches
          else ⟨outgoing.entry.table.name, outgoing.entry.table.columns, [outgoing.item]⟩ :: first :: batches

section
variable (e : Encounters) (limit : MessageLimit) (drainedAfter : Bool)

/-- `pushChunk`: one result for each row, or it throws. -/
def pushChunk (n : ℕ) (chunk : List Outgoing) (drained : Bool) : Calls DeliveryCall (List Char) := do
  let results ← Calls.call (.push chunk drained) (e.results n)
  if results.toList.length = chunk.length then pure results.toList else ⟨[], none⟩

/-- The offers, from the nth on: the rows that the peer wants, and those it does not. -/
def offerChunks : ℕ → List (List (Entry × ℕ)) → Calls DeliveryCall (List (Entry × ℕ) × List (Entry × ℕ))
  | _, [] => pure ([], [])
  | n, chunk :: chunks => do
      let want ← Calls.call (.offer (chunk.map fun entry => entry.1.offerItem)) (e.want n)
      let split := chunk.zipIdx.partition fun entry => want.contains (entry.2 : ℤ)
      let rest ← offerChunks (n + 1) chunks
      pure (split.1.map Prod.fst ++ rest.1, split.2.map Prod.fst ++ rest.2)

/-- What is made of the rows to send. -/
structure Prepared where
  outgoing : List Outgoing
  settled : List Entry
  unsettled : List Entry

/-- `loadRows` -/
def loadRows (entries : List Entry) : Calls DeliveryCall Unit :=
  if entries.all fun entry => entry.deleted || e.loads entry.table then pure () else ⟨[], none⟩

/-- The rows to send as they go out; those that are gone are settled, and those that cannot be sent stay. -/
def prepare : List Entry → Calls DeliveryCall Prepared
  | [] => pure ⟨[], [], []⟩
  | entry :: entries => do
      if entry.deleted then
        let rest ← prepare entries
        pure { rest with outgoing := ⟨entry, entry.wireItem none, 200⟩ :: rest.outgoing }
      else
        match e.load entry with
        | .gone =>
            -- Gone without its deletion being recorded.
            Calls.call (.recordImplicitDeletion entry) (if e.records entry then some () else none)
            let rest ← prepare entries
            pure { rest with settled := entry :: rest.settled }
        | .unencodable =>
            let rest ← prepare entries
            pure { rest with unsettled := entry :: rest.unsettled }
        | .row encoded =>
            let size := encodedLength encoded + 200
            let rest ← prepare entries
            if tooLarge limit size then pure { rest with unsettled := entry :: rest.unsettled }
            else pure { rest with outgoing := ⟨entry, entry.wireItem (some encoded), size⟩ :: rest.outgoing }

/-- The packages, from the nth on, with what is unsettled by then.  Only the final call of a round that leaves nothing behind may say
so. -/
def pushChunks : ℕ → List (List Outgoing) → Delivery → Calls DeliveryCall Delivery
  | _, [], delivery => pure delivery
  | n, chunk :: chunks, delivery => do
      let drained := drainedAfter && chunks.isEmpty && delivery.unsettled.isEmpty
      let results ← pushChunk e n chunk drained
      let split := (chunk.zip results).partition fun pair => pair.2 = 'r'
      pushChunks (n + 1) chunks
        ⟨delivery.settled ++ split.2.map fun pair => pair.1.entry, delivery.unsettled ++ split.1.map fun pair => pair.1.entry, drained⟩

/-- Offers and pushes a set of entries.  Every entry goes along with its number, as what it is told apart by. -/
def deliver (entries : List Entry) : Calls DeliveryCall Delivery := do
  let split := entries.zipIdx.partition fun entry => entry.1.offerFirst
  let (wanted, declined) ← offerChunks e 0 (pack (fun _ => 1) 2000 split.1)
  let toSend := (split.2 ++ wanted).insertionSort fun a b => a.2 ≤ b.2
  loadRows e (toSend.map Prod.fst)
  let prepared ← prepare e limit (toSend.map Prod.fst)
  pushChunks e drainedAfter 0 (pack Outgoing.size (limit.bytes / 2) prepared.outgoing)
    ⟨declined.map Prod.fst ++ prepared.settled, prepared.unsettled, false⟩

end

/-! ### What the peer is sent -/

theorem pushBatches_eq_nil {chunk : List Outgoing} : pushBatches chunk = [] ↔ chunk = [] := by
  cases chunk with
  | nil => exact ⟨fun _ => rfl, fun _ => rfl⟩
  | cons outgoing chunk =>
      rw [pushBatches]
      split
      · simp
      · split <;> simp

/-- The rows of a package are those of its batches, in the same order. -/
theorem flatMap_pushBatches (chunk : List Outgoing) :
    ((pushBatches chunk).flatMap fun batch => batch.items.map fun item => (batch.t, item)) =
      chunk.map fun outgoing => (outgoing.entry.table.name, outgoing.item) := by
  induction chunk with
  | nil => rfl
  | cons outgoing chunk ih =>
      rw [pushBatches]
      split
      · next h =>
          rw [pushBatches_eq_nil.mp h]
          rfl
      · next first batches h =>
          rw [h, List.flatMap_cons] at ih
          rw [List.map_cons, ← ih]
          split
          · next heq =>
              rw [List.flatMap_cons, ← heq]
              rfl
          · rfl

theorem length_slotResults (count : ℕ) (results : List (WorkItem × ItemResult)) : (slotResults count results).length = count := by
  refine foldl_invariant (P := fun slots : List ItemResult => slots.length = count) ?_ List.length_replicate
  intro slots entry _ hslots
  cases entry.1.slot with
  | none => exact hslots
  | some slot => exact (List.length_set ..).trans hslots

/-- **The peer answers a package** with one result for each of its rows. -/
theorem applyPush_batches (node : Node) (env : Surroundings) (store : Store) (fromPeer : String) (chunk : List Outgoing) :
    (applyPush node env store fromPeer (pushBatches chunk)).2.length = chunk.length := by
  have hwires := congrArg List.length (flatMap_pushBatches chunk)
  rw [List.length_map, List.length_flatMap] at hwires
  refine (length_slotResults _ _).trans ?_
  rw [← hwires]
  refine (List.length_flatMap ..).trans ?_
  exact congrArg List.sum (List.map_congr_left fun batch _ => by rw [List.length_map, List.length_map])

/-! ### What is settled and what stays -/

theorem perm_partition {α : Type*} (p : α → Bool) (l : List α) : ((l.partition p).1 ++ (l.partition p).2).Perm l := by
  rw [List.partition_eq_filter_filter]
  exact List.filter_append_perm p l

/-- Every row that is offered is wanted or declined. -/
theorem perm_offerChunks {e : Encounters} {chunks : List (List (Entry × ℕ))} {n : ℕ} {answer : List (Entry × ℕ) × List (Entry × ℕ)}
    (h : (offerChunks e n chunks).result = some answer) : (answer.1 ++ answer.2).Perm chunks.flatten := by
  induction chunks generalizing n answer with
  | nil =>
      cases h
      exact .nil
  | cons chunk chunks ih =>
      obtain ⟨want, -, h⟩ := Calls.bind_eq_some.mp h
      obtain ⟨rest, hrest, h⟩ := Calls.bind_eq_some.mp h
      cases h
      have hchunk := ((perm_partition (fun entry => want.contains (entry.2 : ℤ)) chunk.zipIdx).map Prod.fst)
      rw [List.map_append, List.zipIdx_map_fst] at hchunk
      have hperm := ih hrest
      rw [List.flatten_cons]
      refine .trans ?_ (hchunk.append hperm)
      rw [List.append_assoc, List.append_assoc]
      exact .append_left _ (List.perm_append_comm_assoc ..)

/-- Every row to send goes out, is settled because it is gone, or stays. -/
theorem perm_prepare {e : Encounters} {limit : MessageLimit} {entries : List Entry} {prepared : Prepared}
    (h : (prepare e limit entries).result = some prepared) :
    (prepared.outgoing.map Outgoing.entry ++ (prepared.settled ++ prepared.unsettled)).Perm entries ∧
      (prepared.outgoing.map Outgoing.entry).Sublist entries := by
  induction entries generalizing prepared with
  | nil =>
      cases h
      exact ⟨.nil, .slnil⟩
  | cons entry entries ih =>
      rw [prepare] at h
      split at h
      · obtain ⟨rest, hrest, h⟩ := Calls.bind_eq_some.mp h
        cases h
        obtain ⟨hperm, hsub⟩ := ih hrest
        exact ⟨hperm.cons entry, hsub.cons_cons entry⟩
      cases hload : e.load entry with
      | gone =>
          rw [hload] at h
          obtain ⟨_, -, h⟩ := Calls.bind_eq_some.mp h
          obtain ⟨rest, hrest, h⟩ := Calls.bind_eq_some.mp h
          cases h
          obtain ⟨hperm, hsub⟩ := ih hrest
          exact ⟨List.perm_middle.trans (hperm.cons entry), hsub.cons entry⟩
      | unencodable =>
          rw [hload] at h
          obtain ⟨rest, hrest, h⟩ := Calls.bind_eq_some.mp h
          cases h
          obtain ⟨hperm, hsub⟩ := ih hrest
          refine ⟨.trans ?_ (hperm.cons entry), hsub.cons entry⟩
          rw [← List.append_assoc, ← List.append_assoc]
          exact List.perm_middle
      | row encoded =>
          rw [hload] at h
          obtain ⟨rest, hrest, h⟩ := Calls.bind_eq_some.mp h
          obtain ⟨hperm, hsub⟩ := ih hrest
          split at h
          · cases h
            refine ⟨.trans ?_ (hperm.cons entry), hsub.cons entry⟩
            rw [← List.append_assoc, ← List.append_assoc]
            exact List.perm_middle
          · cases h
            exact ⟨hperm.cons entry, hsub.cons_cons entry⟩

theorem length_pushChunk {e : Encounters} {n : ℕ} {chunk : List Outgoing} {drained : Bool} {results : List Char}
    (h : (pushChunk e n chunk drained).result = some results) : results.length = chunk.length := by
  obtain ⟨text, -, h⟩ := Calls.bind_eq_some.mp h
  split at h
  · next heq =>
      cases h
      exact heq
  · cases h

/-- Every row of the packages is settled, or stays because the peer rejected it. -/
theorem perm_pushChunks {e : Encounters} {drainedAfter : Bool} {chunks : List (List Outgoing)} {n : ℕ} {before after : Delivery}
    (h : (pushChunks e drainedAfter n chunks before).result = some after) :
    (after.settled ++ after.unsettled).Perm (before.settled ++ before.unsettled ++ chunks.flatten.map Outgoing.entry) := by
  induction chunks generalizing n before with
  | nil =>
      cases h
      rw [List.flatten_nil, List.map_nil, List.append_nil]
  | cons chunk chunks ih =>
      obtain ⟨results, hresults, h⟩ := Calls.bind_eq_some.mp h
      refine (ih h).trans ?_
      have hzip : (chunk.zip results).map Prod.fst = chunk :=
        List.map_fst_zip (length_pushChunk hresults).ge
      have hsplit := (perm_partition (fun pair : Outgoing × Char => pair.2 = 'r') (chunk.zip results)).map fun pair => pair.1.entry
      have hchunk : (chunk.zip results).map (fun pair => pair.1.entry) = chunk.map Outgoing.entry := by
        conv_rhs => rw [← hzip, List.map_map]
        rfl
      rw [List.map_append, hchunk] at hsplit
      refine List.perm_iff_count.mpr fun entry => ?_
      have hcount := hsplit.count_eq entry
      simp only [List.flatten_cons, List.map_append, List.count_append] at hcount ⊢
      omega

/-- The rows to send, in the order they were read in. -/
theorem sublist_toSend {e : Encounters} {entries : List Entry} {answer : List (Entry × ℕ) × List (Entry × ℕ)}
    (h : (offerChunks e 0 (pack (fun _ => 1) 2000 (entries.zipIdx.partition fun entry => entry.1.offerFirst).1)).result = some answer) :
    ((((entries.zipIdx.partition fun entry => entry.1.offerFirst).2 ++ answer.1).insertionSort fun a b => a.2 ≤ b.2).map
      Prod.fst).Sublist entries := by
  set split := entries.zipIdx.partition fun entry => entry.1.offerFirst
  set toSend := (split.2 ++ answer.1).insertionSort fun a b => a.2 ≤ b.2 with htoSend
  have hoffered := perm_offerChunks h
  rw [flatten_pack] at hoffered
  have hall : (split.1 ++ split.2).Perm entries.zipIdx := perm_partition _ _
  have hsub : toSend.Subperm entries.zipIdx := by
    refine (List.perm_insertionSort _ _).subperm.trans (.trans ?_ hall.subperm)
    refine .trans ?_ (List.Perm.subperm (List.perm_append_comm : (split.2 ++ split.1).Perm (split.1 ++ split.2)))
    refine (List.subperm_append_left _).mpr ?_
    exact (List.sublist_append_left answer.1 answer.2).subperm.trans hoffered.subperm
  obtain ⟨sorted, hperm, hsorted⟩ := hsub
  have hrange : entries.zipIdx.Pairwise fun a b => a.2 ≤ b.2 := by
    have hnumbers : (entries.zipIdx.map Prod.snd).Pairwise (· ≤ ·) := by
      rw [List.zipIdx_map_snd]
      exact List.pairwise_le_range'
    exact List.pairwise_map.mp hnumbers
  have heq : sorted = toSend := by
    refine hperm.eq_of_pairwise ?_ (hrange.sublist hsorted) (List.pairwise_insertionSort (r := fun a b : Entry × ℕ => a.2 ≤ b.2) _)
    -- Entries with one number are one entry.
    intro a b ha hb hab hba
    have ha' := List.mem_zipIdx_iff_getElem?.mp (hsorted.subset ha)
    have hb' := List.mem_zipIdx_iff_getElem?.mp (hsorted.subset (hperm.symm.subset hb))
    have hnumber : a.2 = b.2 := le_antisymm hab hba
    rw [hnumber, hb'] at ha'
    exact Prod.ext (Option.some.inj ha').symm hnumber
  rw [← heq]
  have hmap := hsorted.map Prod.fst
  rwa [List.zipIdx_map_fst] at hmap

/-! ### The calls -/

/-- The rows that a call pushes. -/
def DeliveryCall.pushed : DeliveryCall → List Entry
  | .push chunk _ => chunk.map Outgoing.entry
  | _ => []

/-- A package is not empty, and no larger than half a message unless it is of one row, which a message has room for. -/
def DeliveryCall.Fits (limit : MessageLimit) : DeliveryCall → Prop
  | .push chunk _ => FitPack Outgoing.size (limit.bytes / 2) chunk ∧ ∀ outgoing ∈ chunk, tooLarge limit outgoing.size = false
  | _ => True

/-- A call that does not say that nothing is left. -/
def DeliveryCall.Open : DeliveryCall → Prop
  | .push _ drained => drained = false
  | _ => True

theorem made_offerChunks (e : Encounters) (chunks : List (List (Entry × ℕ))) (n : ℕ) :
    (offerChunks e n chunks).All fun call => ∃ items, call = .offer items := by
  induction chunks generalizing n with
  | nil => exact .pure _
  | cons chunk chunks ih =>
      refine .bind (.call ⟨_, rfl⟩ _) fun want _ => ?_
      exact .bind (ih (n + 1)) fun rest _ => .pure _

theorem made_prepare (e : Encounters) (limit : MessageLimit) (entries : List Entry) :
    (prepare e limit entries).All fun call => ∃ entry, call = .recordImplicitDeletion entry := by
  induction entries with
  | nil => exact .pure _
  | cons entry entries ih =>
      rw [prepare]
      split
      · exact .bind ih fun rest _ => .pure _
      cases e.load entry with
      | gone =>
          refine .bind (.call ⟨_, rfl⟩ _) fun _ _ => ?_
          exact .bind ih fun rest _ => .pure _
      | unencodable => exact .bind ih fun rest _ => .pure _
      | row encoded =>
          refine .bind ih fun rest _ => ?_
          split <;> exact .pure _

theorem made_pushChunk (e : Encounters) (n : ℕ) (chunk : List Outgoing) (drained : Bool) :
    (pushChunk e n chunk drained).made = [.push chunk drained] := by
  cases hr : e.results n with
  | none => rw [pushChunk, Calls.made_bind_none (by simp [hr])]; rfl
  | some text =>
      rw [pushChunk, Calls.made_bind (a := text) (by simp [hr])]
      split <;> rfl

/-- What goes out is small enough for a message. -/
theorem fits_prepare {e : Encounters} {limit : MessageLimit} {entries : List Entry} {prepared : Prepared}
    (h : (prepare e limit entries).result = some prepared) :
    ∀ outgoing ∈ prepared.outgoing, tooLarge limit outgoing.size = false := by
  induction entries generalizing prepared with
  | nil =>
      cases h
      simp
  | cons entry entries ih =>
      rw [prepare] at h
      split at h
      · obtain ⟨rest, hrest, h⟩ := Calls.bind_eq_some.mp h
        cases h
        refine List.forall_mem_cons.mpr ⟨?_, ih hrest⟩
        have hge := limit.ge
        exact decide_eq_false (by simp only; omega)
      cases hload : e.load entry with
      | gone =>
          rw [hload] at h
          obtain ⟨_, -, h⟩ := Calls.bind_eq_some.mp h
          obtain ⟨rest, hrest, h⟩ := Calls.bind_eq_some.mp h
          cases h
          exact fun outgoing hmem => ih hrest outgoing hmem
      | unencodable =>
          rw [hload] at h
          obtain ⟨rest, hrest, h⟩ := Calls.bind_eq_some.mp h
          cases h
          exact fun outgoing hmem => ih hrest outgoing hmem
      | row encoded =>
          rw [hload] at h
          obtain ⟨rest, hrest, h⟩ := Calls.bind_eq_some.mp h
          split at h
          · cases h
            exact fun outgoing hmem => ih hrest outgoing hmem
          · next hsize =>
              cases h
              exact List.forall_mem_cons.mpr ⟨Bool.eq_false_iff.mpr hsize, ih hrest⟩

/-- The packages go out in their order, as far as the peer answers, and only the last one may say that nothing is left. -/
structure Pushed (drainedAfter : Bool) (chunks : List (List Outgoing)) (made : List DeliveryCall) : Prop where
  order : (made.flatMap DeliveryCall.pushed) <+: chunks.flatten.map Outgoing.entry
  packages : ∀ call ∈ made, ∃ chunk ∈ chunks, ∃ drained, call = .push chunk drained
  quiet : ∀ call ∈ made.dropLast, call.Open
  drained : drainedAfter = false → ∀ call ∈ made, call.Open

theorem pushed_pushChunks (e : Encounters) (drainedAfter : Bool) (chunks : List (List Outgoing)) (n : ℕ) (before : Delivery) :
    Pushed drainedAfter chunks (pushChunks e drainedAfter n chunks before).made := by
  induction chunks generalizing n before with
  | nil => exact ⟨List.prefix_refl _, by simp [pushChunks], by simp [pushChunks], by simp [pushChunks]⟩
  | cons chunk chunks ih =>
      rw [pushChunks]
      set drained := drainedAfter && chunks.isEmpty && before.unsettled.isEmpty with hdrained
      have hfirst : drainedAfter = false → DeliveryCall.Open (.push chunk drained) := by
        intro hafter
        simp [DeliveryCall.Open, hdrained, hafter]
      cases hr : (pushChunk e n chunk drained).result with
      | none =>
          rw [Calls.made_bind_none hr, made_pushChunk]
          refine ⟨?_, ?_, by simp, ?_⟩
          · rw [List.flatMap_singleton, List.flatten_cons, List.map_append]
            exact List.prefix_append _ _
          · intro call hcall
            exact ⟨chunk, List.mem_cons_self, drained, List.mem_singleton.mp hcall⟩
          · intro hafter call hcall
            exact List.mem_singleton.mp hcall ▸ hfirst hafter
      | some results =>
          rw [Calls.made_bind hr, made_pushChunk, List.singleton_append]
          obtain ⟨horder, hpackages, hquiet, hdrain⟩ := ih (n + 1) _
          refine ⟨?_, ?_, ?_, ?_⟩
          · rw [List.flatMap_cons, List.flatten_cons, List.map_append]
            exact (List.prefix_append_right_inj _).mpr horder
          · intro call hcall
            rcases List.mem_cons.mp hcall with rfl | hcall
            · exact ⟨chunk, List.mem_cons_self, drained, rfl⟩
            · obtain ⟨other, hother, b, rfl⟩ := hpackages call hcall
              exact ⟨other, List.mem_cons_of_mem _ hother, b, rfl⟩
          · intro call hcall
            cases chunks with
            | nil => simp [pushChunks] at hcall
            | cons other chunks =>
                -- A package behind which there is another does not say it.
                rw [List.dropLast_cons_of_ne_nil ?_, List.mem_cons] at hcall
                · rcases hcall with rfl | hcall
                  · simp [DeliveryCall.Open, hdrained]
                  · exact hquiet call hcall
                · intro hnil
                  rw [hnil] at hcall
                  simp at hcall
          · intro hafter call hcall
            rcases List.mem_cons.mp hcall with rfl | hcall
            · exact hfirst hafter
            · exact hdrain hafter call hcall

/-- A delivery offers and loads first, and then pushes what it has in packages, unless it stops before. -/
theorem deliver_cases (e : Encounters) (limit : MessageLimit) (drainedAfter : Bool) (entries : List Entry) :
    ∃ before pushes, (deliver e limit drainedAfter entries).made = before ++ pushes ∧
      (∀ call ∈ before, call.pushed = [] ∧ call.Fits limit ∧ call.Open) ∧
      (pushes = [] ∧ (deliver e limit drainedAfter entries).result = none ∨
        ∃ outgoing start,
          pushes = (pushChunks e drainedAfter 0 (pack Outgoing.size (limit.bytes / 2) outgoing) start).made ∧
          (deliver e limit drainedAfter entries).result =
            (pushChunks e drainedAfter 0 (pack Outgoing.size (limit.bytes / 2) outgoing) start).result ∧
          (start.settled ++ start.unsettled ++ outgoing.map Outgoing.entry).Perm entries ∧
          (outgoing.map Outgoing.entry).Sublist entries ∧ ∀ o ∈ outgoing, tooLarge limit o.size = false) := by
  have hquiet : ∀ {calls : List DeliveryCall},
      (∀ call ∈ calls, (∃ items, call = .offer items) ∨ ∃ entry, call = .recordImplicitDeletion entry) →
        ∀ call ∈ calls, call.pushed = [] ∧ call.Fits limit ∧ call.Open := by
    intro calls hcalls call hcall
    rcases hcalls call hcall with ⟨items, rfl⟩ | ⟨entry, rfl⟩ <;> exact ⟨rfl, trivial, trivial⟩
  set split := entries.zipIdx.partition fun entry => entry.1.offerFirst with hsplit
  have hoffers := made_offerChunks e (pack (fun _ => 1) 2000 split.1) 0
  rw [deliver]
  rcases Calls.bind_cases (offerChunks e 0 (pack (fun _ => 1) 2000 split.1)) _ with ⟨-, hmade, hresult⟩ | ⟨answer, hanswer, hmade, hresult⟩
  · exact ⟨_, [], by rw [hmade, List.append_nil], hquiet fun call hcall => .inl (hoffers call hcall), .inl ⟨rfl, hresult⟩⟩
  rw [hmade, hresult]
  set toSend := (split.2 ++ answer.1).insertionSort fun a b => a.2 ≤ b.2
  have hload : (loadRows e (toSend.map Prod.fst)).made = [] := by
    rw [loadRows]
    split <;> rfl
  rcases Calls.bind_cases (loadRows e (toSend.map Prod.fst)) _ with ⟨-, hmade, hresult⟩ | ⟨_, -, hmade, hresult⟩
  · refine ⟨_, [], by rw [hmade, hload, List.append_nil], hquiet fun call hcall => .inl (hoffers call hcall), .inl ⟨rfl, hresult⟩⟩
  rw [hmade, hresult, hload, List.nil_append]
  have hprepare := made_prepare e limit (toSend.map Prod.fst)
  have hbefore : ∀ call ∈ (offerChunks e 0 (pack (fun _ => 1) 2000 split.1)).made ++ (prepare e limit (toSend.map Prod.fst)).made,
      call.pushed = [] ∧ call.Fits limit ∧ call.Open := by
    refine hquiet fun call hcall => ?_
    rcases List.mem_append.mp hcall with hcall | hcall
    · exact .inl (hoffers call hcall)
    · exact .inr (hprepare call hcall)
  rcases Calls.bind_cases (prepare e limit (toSend.map Prod.fst)) _ with ⟨-, hmade, hresult⟩ | ⟨prepared, hprepared, hmade, hresult⟩
  · exact ⟨_, [], by rw [hmade, List.append_nil], hbefore, .inl ⟨rfl, hresult⟩⟩
  rw [hmade, hresult, ← List.append_assoc]
  obtain ⟨hperm, hsub⟩ := perm_prepare hprepared
  refine ⟨_, _, rfl, hbefore, .inr ⟨prepared.outgoing, _, rfl, rfl, ?_, hsub.trans (sublist_toSend hanswer), fits_prepare hprepared⟩⟩
  -- Declined, gone, kept back or going out: together they are the rows.
  have hoffered := (perm_offerChunks hanswer).map Prod.fst
  have hall : ((split.1 ++ split.2).map Prod.fst).Perm (entries.zipIdx.map Prod.fst) := (perm_partition _ _).map _
  have hsorted : (toSend.map Prod.fst).Perm ((split.2 ++ answer.1).map Prod.fst) := (List.perm_insertionSort _ _).map _
  rw [flatten_pack] at hoffered
  rw [List.zipIdx_map_fst] at hall
  refine List.perm_iff_count.mpr fun entry => ?_
  have h₁ := hoffered.count_eq entry
  have h₂ := hall.count_eq entry
  have h₃ := hsorted.count_eq entry
  have h₄ := hperm.count_eq entry
  simp only [List.map_append, List.count_append] at h₁ h₂ h₃ h₄ ⊢
  omega

/-- **What a delivery does.**  If it returns, every row has been settled or kept to be tried again, each once.  Whether or not it
returns, what it pushes it pushes in the order the rows were read in, in packages that fit a message, and only its last call may say
that nothing is left. -/
theorem deliver_accounts (e : Encounters) (limit : MessageLimit) (drainedAfter : Bool) (entries : List Entry) :
    (∀ delivery, (deliver e limit drainedAfter entries).result = some delivery →
      (delivery.settled ++ delivery.unsettled).Perm entries) ∧
    ((deliver e limit drainedAfter entries).made.flatMap DeliveryCall.pushed).Sublist entries ∧
    (∀ call ∈ (deliver e limit drainedAfter entries).made, call.Fits limit) ∧
    (∀ call ∈ (deliver e limit drainedAfter entries).made.dropLast, call.Open) ∧
    (drainedAfter = false → ∀ call ∈ (deliver e limit drainedAfter entries).made, call.Open) := by
  obtain ⟨before, pushes, hmade, hbefore, ⟨rfl, hresult⟩ | ⟨outgoing, start, hpushes, hresult, hperm, hsub, hfits⟩⟩ :=
    deliver_cases e limit drainedAfter entries
  · rw [List.append_nil] at hmade
    rw [hmade, hresult]
    refine ⟨by simp, ?_, fun call hcall => (hbefore call hcall).2.1,
      fun call hcall => (hbefore call (List.dropLast_subset _ hcall)).2.2, fun _ call hcall => (hbefore call hcall).2.2⟩
    rw [List.flatMap_eq_nil_iff.mpr fun call hcall => (hbefore call hcall).1]
    exact List.nil_sublist _
  have hp := pushed_pushChunks e drainedAfter (pack Outgoing.size (limit.bytes / 2) outgoing) 0 start
  rw [← hpushes] at hp
  rw [hmade, hresult]
  refine ⟨?_, ?_, ?_, ?_, ?_⟩
  · intro delivery hdelivery
    have hrows := perm_pushChunks hdelivery
    rw [flatten_pack] at hrows
    exact hrows.trans hperm
  · rw [List.flatMap_append, List.flatMap_eq_nil_iff.mpr fun call hcall => (hbefore call hcall).1, List.nil_append]
    have horder := hp.order
    rw [flatten_pack] at horder
    exact horder.sublist.trans hsub
  · intro call hcall
    rcases List.mem_append.mp hcall with hcall | hcall
    · exact (hbefore call hcall).2.1
    obtain ⟨chunk, hchunk, drained, rfl⟩ := hp.packages call hcall
    refine ⟨weight_pack hchunk, fun o ho => hfits o ?_⟩
    have hflat : (pack Outgoing.size (limit.bytes / 2) outgoing).flatten = outgoing := flatten_pack outgoing
    rw [← hflat]
    exact List.mem_flatten_of_mem hchunk ho
  · intro call hcall
    by_cases hnil : pushes = []
    · rw [hnil, List.append_nil] at hcall
      exact (hbefore call (List.dropLast_subset _ hcall)).2.2
    rw [List.dropLast_append_of_ne_nil hnil, List.mem_append] at hcall
    rcases hcall with hcall | hcall
    · exact (hbefore call hcall).2.2
    · exact hp.quiet call hcall
  · intro hafter call hcall
    rcases List.mem_append.mp hcall with hcall | hcall
    · exact (hbefore call hcall).2.2
    · exact hp.drained hafter call hcall

end Pokyh.Cluster

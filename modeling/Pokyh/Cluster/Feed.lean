import Pokyh.Cluster.Delivery
import Pokyh.Cluster.Transfer
import Pokyh.Lib.Horizons

/-!
# Cluster — Feed

The change feed to one peer (`replicator.ts`), with the transactions that write the version registry next to it.  A position is taken
when a change is recorded, and becomes visible when its transaction commits, which may be after later positions are visible.  Reading
runs ahead (`readTo`); the stored position (`sentSeq`) moves only at the end of a sweep, a second reading from the stored position on,
and no further than what was committed for certain when the sweep began (`stableFeedPosition`).

A `World` is the registry with its open transactions, the process with its memory, what is stored of the peer, and the complete
transfer's walk.  Its steps split `syncPeer` where it waits for the database or for the peer; between any two of them transactions may
write, commit and roll back, the process may start again, and the link may be switched on anew.

* `stable_position_exact`: the samples that are kept give the same stable position as all heads that were ever read.
* `inv_step`: what every step keeps.
* `feed_lossless`: **the stored position passes no change that the peer has not been told of**, and what the position was set to when
  the link was made is covered by the walk.
-/

namespace Pokyh.Cluster.Feed
open Pokyh.Lib

/-! ### The commit horizon -/

/-- What a node is set to, and the peer that the feed is for. -/
structure Setting where
  nodeId : String
  peerId : String
  catalog : List TableInfo
  names_nodup : (catalog.map TableInfo.name).Nodup
  batchSize : ℕ
  batchSize_ge : 10 ≤ batchSize
  batchSize_le : batchSize ≤ 2000
  batchIdleMs : ℕ
  batchMaxDelayMs : ℕ
  commitHorizonMs : ℕ
  commitHorizonMs_ge : 5000 ≤ commitHorizonMs
  limit : MessageLimit

def Setting.names (s : Setting) : List String := s.catalog.map TableInfo.name

/-- The loop of `noteFeedHead` that drops samples from the front. -/
def dropOld (s : Setting) (now : ℕ) : List Sample → List Sample
  | a :: b :: c :: samples =>
      if b.time + (s.commitHorizonMs + 10000) < now then dropOld s now (b :: c :: samples) else a :: b :: c :: samples
  | samples => samples

def noteFeedHead (s : Setting) (now seq : ℕ) (samples : List Sample) : List Sample :=
  match samples.getLast? with
  | some last =>
      if last.number = seq ∧ now - last.time < 1000 then samples else dropOld s now (samples ++ [⟨now, seq⟩])
  | none => dropOld s now (samples ++ [⟨now, seq⟩])

/-- The newest sample that is a horizon old. -/
def stableSample (s : Setting) (now : ℕ) (samples : List Sample) : Option Sample :=
  latest (fun sample => sample.time + s.commitHorizonMs ≤ now) samples

/-- The newest position below which every change is committed. -/
def stableFeedPosition (s : Setting) (now startupSeq : ℕ) (samples : List Sample) : ℕ :=
  ((stableSample s now samples).map Sample.number).getD startupSeq

/-! ### Reading -/

abbrev RowKey := String × String

/-- `SELECT MAX(seq)` -/
def feedHead (db : Database) : ℕ := (db.registry.toList.map fun line => line.2.seq).foldl max 0

/-- The registry's rows beyond a position, in the order of the feed. -/
def rowsBeyond (db : Database) (position : ℕ) : List (RowKey × VersionRecord) :=
  (db.registry.toList.filter fun line => position < line.2.seq).insertionSort fun a b => a.2.seq ≤ b.2.seq

def readFeed (s : Setting) (db : Database) (position : ℕ) : List (RowKey × VersionRecord) × Bool :=
  ((rowsBeyond db position).take s.batchSize, s.batchSize < (rowsBeyond db position).length)

structure Sent where
  version : ℕ
  seq : ℕ
  deriving DecidableEq, Repr

structure FeedBatch where
  entries : List Entry
  /-- Furthest position covered by this read. -/
  readTo : ℕ
  truncated : Bool
  /-- Rows skipped because the peer has them (its own changes, ones it sent us). -/
  skipped : List (RowKey × Sent)
  deriving DecidableEq, Repr

/-- What becomes of a row that is read. -/
inductive Verdict where
  | unknownTable
  | alreadySent
  | peerHasIt
  | toDeliver (entry : Entry)
  deriving DecidableEq, Repr

def Setting.table? (s : Setting) (name : String) : Option TableInfo := s.catalog.find? fun table => table.name = name

def verdict (s : Setting) (startupSeq : ℕ) (sent : Table RowKey Sent) (row : RowKey × VersionRecord) : Verdict :=
  match s.table? row.1.1 with
  | none => .unknownTable
  | some table =>
      if (sent.lookup row.1).any fun known => known.version = row.2.version then .alreadySent
      else if row.2.origin = s.peerId ∨ row.2.via = some s.peerId then .peerHasIt
      else
        -- Changes made here are sent outright; the others, and anything recorded before this process started, are offered first.
        .toDeliver (toEntry table row.1.2 row.2 (some row.2.seq) (row.2.origin ≠ s.nodeId || row.2.seq ≤ startupSeq))

def Verdict.entry : Verdict → Option Entry
  | .toDeliver entry => some entry
  | _ => none

def nextFeedBatch (s : Setting) (startupSeq : ℕ) (db : Database) (sent : Table RowKey Sent) (position : ℕ) : FeedBatch where
  entries := (readFeed s db position).1.filterMap fun row => (verdict s startupSeq sent row).entry
  readTo := (readFeed s db position).1.foldl (fun readTo row => max readTo row.2.seq) position
  truncated := (readFeed s db position).2
  skipped := ((readFeed s db position).1.filter fun row => verdict s startupSeq sent row = .peerHasIt).map fun row =>
    (row.1, ⟨row.2.version, row.2.seq⟩)

/-! ### The position -/

structure Sweep where
  pos : ℕ
  upTo : ℕ
  stable : ℕ
  deriving DecidableEq, Repr

structure FeedProgress where
  cursor : ℕ
  /-- Furthest position read so far; reading continues from here. -/
  readTo : ℕ
  /-- Rows delivered beyond the cursor. -/
  sent : Table RowKey Sent
  pendingSince : Option ℕ
  lastNewAt : ℕ
  lastHead : ℕ
  sweep : Option Sweep
  lastSweepAt : ℕ
  lastPersistAt : ℕ

def newFeedProgress (now cursor : ℕ) : FeedProgress := ⟨cursor, cursor, ∅, none, now, 0, none, 0, 0⟩

/-- What of a batch the peer has now, and the first position that has to be tried again. -/
def remember (feed : FeedProgress) (batch : FeedBatch) (delivery : Option Delivery) : FeedProgress × Option ℕ :=
  let settled := (delivery.map Delivery.settled).getD []
  let sent := settled.foldl (fun sent entry =>
    match entry.seq with
    | some seq => sent.insert entry.row ⟨entry.version, seq⟩
    | none => sent) feed.sent
  ({ feed with sent := batch.skipped.foldl (fun sent skip => sent.insert skip.1 skip.2) sent },
   (((delivery.map Delivery.unsettled).getD []).filterMap Entry.seq).min?)

/-- The part of `moveCursor` in memory. -/
def moveCursor (now : ℕ) (feed : FeedProgress) (target : ℕ) : FeedProgress :=
  { feed with cursor := target, sent := feed.sent.keep fun _ sent => !(sent.seq ≤ target), lastPersistAt := now }

/-- Whether to send what has accumulated now or to wait for more. -/
def shouldSendNow (s : Setting) (now head : ℕ) (feed : FeedProgress) (batch : FeedBatch) : FeedProgress × Bool :=
  if batch.entries.isEmpty then ({ feed with pendingSince := none }, false)
  else if batch.truncated then (feed, true)
  else
    let since := feed.pendingSince.getD now
    let allInHand := head ≤ batch.readTo
    ({ feed with pendingSince := some since },
      (allInHand && s.batchIdleMs ≤ now - feed.lastNewAt) || s.batchMaxDelayMs ≤ now - since)

/-- `sendFeedBatch`, from the delivery on: reading resumes just before a row that has to be retried, and the round throws. -/
def settleBatch (feed : FeedProgress) (batch : FeedBatch) (delivery : Delivery) : FeedProgress × Bool :=
  match remember feed batch (some delivery) with
  | (feed, some first) => ({ feed with readTo := if first ≤ feed.readTo then first - 1 else feed.readTo }, false)
  | (feed, none) => (feed, true)

/-! ### The world -/

/-- A change that is recorded and not committed. -/
structure OpenWrite where
  transaction : ℕ
  key : RowKey
  record : VersionRecord
  takenAt : ℕ
  deriving DecidableEq, Repr

/-- Where `syncPeer` waits. -/
inductive Round where
  | idle
  | fed (batch : FeedBatch)
  | sweeping (batch : FeedBatch)
  | persisting (target : ℕ)
  | transferring (entries : List Entry) (next : Option TransferPosition)

/-- What the peer has been told of, for the record: an entry it took, declined or will hear of again as gone, or a version that it
wrote or handed over. -/
inductive Known where
  | settled (entry : Entry)
  | own (key : RowKey) (record : VersionRecord)
  deriving DecidableEq, Repr

/-- The row and the version. -/
def Known.tells : Known → RowKey × ℕ
  | .settled entry => (entry.row, entry.version)
  | .own key record => (key, record.version)

structure World where
  now : ℕ
  db : Database
  opened : List OpenWrite
  samples : List Sample
  startupSeq : ℕ
  feed : FeedProgress
  round : Round
  sentSeq : ℕ
  walk : Walk
  /-- The position when the link was made, and what the peer has been told of since, for the record. -/
  since : ℕ
  log : List Known

/-- What happens next. -/
inductive Action where
  | tick (now : ℕ)
  | write (transaction : ℕ) (key : RowKey) (record : VersionRecord)
  | commit (transaction : ℕ)
  | rollback (transaction : ℕ)
  | prune (delivered : ℕ) (key : RowKey)
  | readHead
  | activate
  | resync
  | restart (headRead : Bool)
  | reload
  | readFeed (head : ℕ)
  | sendFeed (head : ℕ) (e : Encounters)
  | beginSweep
  | readSweep
  | finishSweep (e : Encounters)
  | persist (stored : Bool)
  | readTransfer
  | sendTransfer (head : ℕ) (e : Encounters)

def SWEEP_EVERY_MS : ℕ := 30000

/-- The rows of a read that the peer has. -/
def ownRows (s : Setting) (startupSeq : ℕ) (db : Database) (sent : Table RowKey Sent) (position : ℕ) : List Known :=
  ((Feed.readFeed s db position).1.filter fun row => verdict s startupSeq sent row = .peerHasIt).map fun row => .own row.1 row.2

namespace World

def idle (w : World) : World := { w with round := .idle }

/-- What a delivery settled is put on record. -/
def tell (w : World) (delivery : Delivery) : World := { w with log := delivery.settled.map Known.settled ++ w.log }

/-- Writes the rows of a transaction to the registry. -/
def apply (w : World) (transaction : ℕ) : Database :=
  { w.db with
    registry := (w.opened.filter fun o => o.transaction = transaction).foldl (fun registry o => registry.insert o.key o.record)
      w.db.registry }

/-- After a batch of the feed was delivered, or the delivery threw. -/
def afterFeed (w : World) (batch : FeedBatch) : Option Delivery → World
  | none => w.idle
  | some delivery =>
      match settleBatch w.feed batch delivery with
      | (feed, false) => { w.tell delivery with feed := feed }.idle
      | (feed, true) => { w.tell delivery with feed := { feed with readTo := max feed.readTo batch.readTo, pendingSince := none } }.idle

/-- A batch of the sweep is done: the sweep goes on behind it, or ends and the position moves. -/
def afterSweepBatch (w : World) (sweep : Sweep) (batch : FeedBatch) : World :=
  if batch.truncated ∧ batch.readTo < sweep.upTo then
    { w with feed := { w.feed with sweep := some { sweep with pos := batch.readTo } } }.idle
  else
    let feed := { w.feed with sweep := none, lastSweepAt := w.now }
    let target := min sweep.stable sweep.upTo
    if target ≤ feed.cursor then { w with feed := feed }.idle
    else { w with feed := moveCursor w.now feed target, round := .persisting target }

/-- After a batch of the sweep was delivered, or the delivery threw. -/
def afterSweep (w : World) (sweep : Sweep) (batch : FeedBatch) : Option Delivery → World
  | none => w.idle
  | some delivery =>
      match settleBatch w.feed batch delivery with
      | (feed, false) => { w.tell delivery with feed := feed }.idle
      | (feed, true) => { w.tell delivery with feed := feed }.afterSweepBatch sweep batch

/-- After a batch of the complete transfer was delivered, or the delivery threw. -/
def afterTransfer (s : Setting) (w : World) (entries : List Entry) (next : Option TransferPosition) : Option Delivery → World
  | none => w.idle
  | some delivery =>
      -- A rejected row stops the walk at its current position; it is retried.
      if delivery.unsettled.isEmpty && w.walk.active then
        { w.tell delivery with
          walk := ⟨next.isSome, next.getD ⟨none, none⟩, w.walk.returned ++ entries.map Entry.row, s.names⟩ }.idle
      else (w.tell delivery).idle

end World

/-- One step of the world. -/
def step (s : Setting) (w : World) : Action → Option World
  | .tick now =>
      if w.now ≤ now ∧ ∀ o ∈ w.opened, now < o.takenAt + s.commitHorizonMs then some { w with now } else none
  | .write transaction key record =>
      -- The record is locked by the transaction that has written it.
      if w.db.nextSeq ≤ record.seq ∧ key.2.length = 64 ∧ ∀ o ∈ w.opened, o.key = key → o.transaction = transaction then
        some { w with
          db := { w.db with nextSeq := record.seq + 1 }
          opened := w.opened ++ [⟨transaction, key, record, w.now⟩] }
      else none
  | .commit transaction =>
      some { w with db := w.apply transaction, opened := w.opened.filter fun o => ¬ o.transaction = transaction }
  | .rollback transaction => some { w with opened := w.opened.filter fun o => ¬ o.transaction = transaction }
  | .prune delivered key =>
      if delivered ≤ w.sentSeq ∧ (∀ o ∈ w.opened, o.key ≠ key) ∧
          (w.db.registry.lookup key).any (fun r => r.deleted && r.seq ≤ delivered) then
        some { w with db := { w.db with registry := w.db.registry.erase key } }
      else none
  | .readHead => some { w with samples := noteFeedHead s w.now (feedHead w.db) w.samples }
  | .activate =>
      let position := stableFeedPosition s w.now w.startupSeq w.samples
      some { w with
        sentSeq := position, since := position, feed := newFeedProgress w.now position, walk := Walk.start, log := [], round := .idle }
  | .resync => some { w with walk := Walk.start }
  | .restart headRead =>
      -- The transactions of the process that ended are rolled back.
      some { w with
        opened := [], samples := [], startupSeq := if headRead then feedHead w.db else 0,
        feed := newFeedProgress w.now w.sentSeq, round := .idle }
  | .reload =>
      match w.round with
      | .idle => some (if w.feed.cursor = w.sentSeq then w else { w with feed := newFeedProgress w.now w.sentSeq })
      | _ => none
  | .readFeed head =>
      match w.round with
      | .idle =>
          let feed := if head > w.feed.lastHead then { w.feed with lastNewAt := w.now, lastHead := head } else w.feed
          some { w with
            feed := feed
            round := .fed (nextFeedBatch s w.startupSeq w.db feed.sent feed.readTo)
            log := ownRows s w.startupSeq w.db feed.sent feed.readTo ++ w.log }
      | _ => none
  | .sendFeed head e =>
      match w.round with
      | .fed batch =>
          match shouldSendNow s w.now head w.feed batch with
          | (feed, true) =>
              some ({ w with feed := feed }.afterFeed batch
                (deliver e s.limit (!batch.truncated && !w.walk.active) batch.entries).result)
          | (feed, false) =>
              if batch.entries.isEmpty then
                -- Only rows the peer already has: reading may move on.
                let feed := (remember feed batch none).1
                some { w with feed := { feed with readTo := max feed.readTo batch.readTo } }.idle
              else some { w with feed := feed }.idle
      | _ => none
  | .beginSweep =>
      match w.round with
      | .idle =>
          if w.feed.sweep = none ∧ w.now - w.feed.lastSweepAt > SWEEP_EVERY_MS then
            some { w with feed := { w.feed with
              sweep := some ⟨w.feed.cursor, w.feed.readTo, stableFeedPosition s w.now w.startupSeq w.samples⟩ } }
          else none
      | _ => none
  | .readSweep =>
      match w.round, w.feed.sweep with
      | .idle, some sweep =>
          some { w with
            round := .sweeping (nextFeedBatch s w.startupSeq w.db w.feed.sent sweep.pos)
            log := ownRows s w.startupSeq w.db w.feed.sent sweep.pos ++ w.log }
      | _, _ => none
  | .finishSweep e =>
      match w.round, w.feed.sweep with
      | .sweeping batch, some sweep =>
          if batch.entries.isEmpty then some ({ w with feed := (remember w.feed batch none).1 }.afterSweepBatch sweep batch)
          else some (w.afterSweep sweep batch (deliver e s.limit false batch.entries).result)
      | _, _ => none
  | .persist stored =>
      match w.round with
      | .persisting target => some { w with sentSeq := if stored ∧ w.sentSeq < target then target else w.sentSeq }.idle
      | _ => none
  | .readTransfer =>
      match w.round with
      | .idle =>
          if w.walk.active then
            let read := Cluster.readTransfer s.catalog w.db w.walk.position s.batchSize
            some { w with round := .transferring read.1 read.2 }
          else none
      | _ => none
  | .sendTransfer head e =>
      match w.round with
      | .transferring entries next =>
          -- Without rows there is nothing to deliver.
          if entries.isEmpty then some (w.afterTransfer s entries next (some ⟨[], [], false⟩))
          else some (w.afterTransfer s entries next
            (deliver e s.limit (!next.isSome && head ≤ w.feed.readTo) entries).result)
      | _ => none

/-! ### The samples that are kept -/

theorem dropOld_suffix (s : Setting) (now : ℕ) (samples : List Sample) : dropOld s now samples <:+ samples := by
  fun_induction dropOld s now samples with
  | case1 a b c samples hold ih => exact ih.trans (List.suffix_cons _ _)
  | case2 => exact List.suffix_refl _
  | case3 => exact List.suffix_refl _

/-- What is dropped lies behind a sample that is a horizon old. -/
theorem stable_dropOld {s : Setting} {now later : ℕ} (hle : now ≤ later) {samples : List Sample}
    (hsorted : samples.Pairwise fun a b => a.time ≤ b.time) :
    stableSample s later (dropOld s now samples) = stableSample s later samples := by
  fun_induction dropOld s now samples with
  | case1 a b c samples hold ih =>
      rw [ih hsorted.tail]
      have hab : a.time ≤ b.time := (List.pairwise_cons.mp hsorted).1 b List.mem_cons_self
      exact (latest_tail (by simp only [decide_eq_true_eq]; omega) (by simp only [decide_eq_true_eq]; omega)).symm
  | case2 => rfl
  | case3 => rfl

theorem mem_noteFeedHead {s : Setting} {now seq : ℕ} {samples : List Sample} {sample : Sample}
    (h : sample ∈ noteFeedHead s now seq samples) : sample ∈ samples ∨ sample = ⟨now, seq⟩ := by
  have hnew : sample ∈ dropOld s now (samples ++ [⟨now, seq⟩]) → sample ∈ samples ∨ sample = ⟨now, seq⟩ := by
    intro hmem
    simpa using (dropOld_suffix s now _).subset hmem
  rw [noteFeedHead] at h
  split at h
  · split at h
    · exact .inl h
    · exact hnew h
  · exact hnew h

/-- The samples kept of the heads that were read. -/
def samplesOf (s : Setting) (heads : List Sample) : List Sample :=
  heads.foldl (fun samples head => noteFeedHead s head.time head.number samples) []

/-- What comes last among samples in the order of time is the newest that is old enough, if it is. -/
theorem stable_concat {s : Setting} {later : ℕ} {samples : List Sample} {head : Sample}
    (hsorted : ∀ sample ∈ samples, sample.time ≤ head.time) :
    stableSample s later (samples ++ [head]) =
      if head.time + s.commitHorizonMs ≤ later then some head else stableSample s later samples := by
  have hfront : decide (head.time + s.commitHorizonMs ≤ later) = true →
      ∀ sample ∈ samples, decide (sample.time + s.commitHorizonMs ≤ later) = true := by
    intro hhead sample hsample
    have hle := hsorted sample hsample
    simp only [decide_eq_true_eq] at hhead ⊢
    omega
  rw [stableSample, latest_concat hfront]
  simp only [decide_eq_true_eq]
  rfl

/-- What is kept is sorted, was read, and gives the stable position that all heads give. -/
structure Kept (s : Setting) (heads samples : List Sample) : Prop where
  sorted : samples.Pairwise fun a b => a.time ≤ b.time
  read : ∀ sample ∈ samples, sample ∈ heads
  stable : ∀ later, (∀ head ∈ heads, head.time ≤ later) →
    (stableSample s later samples).map Sample.number = (stableSample s later heads).map Sample.number

theorem Kept.note {s : Setting} {heads samples : List Sample} {head : Sample} (h : Kept s heads samples)
    (hsorted : ∀ earlier ∈ heads, earlier.time ≤ head.time) :
    Kept s (heads ++ [head]) (noteFeedHead s head.time head.number samples) := by
  have hbefore : ∀ sample ∈ samples, sample.time ≤ head.time := fun sample hsample => hsorted sample (h.read sample hsample)
  have hpush : (samples ++ [head]).Pairwise fun a b => a.time ≤ b.time := by
    refine List.pairwise_append.mpr ⟨h.sorted, List.pairwise_singleton _ _, ?_⟩
    intro sample hsample last hlast
    exact List.mem_singleton.mp hlast ▸ hbefore sample hsample
  have hpushed : Kept s (heads ++ [head]) (dropOld s head.time (samples ++ [head])) := by
    refine ⟨hpush.sublist (dropOld_suffix _ _ _).sublist, ?_, ?_⟩
    · intro sample hsample
      rcases List.mem_append.mp ((dropOld_suffix s head.time _).subset hsample) with hold | hnew
      · exact List.mem_append_left _ (h.read sample hold)
      · exact List.mem_append_right _ hnew
    · intro later hlater
      rw [stable_dropOld (hlater head (by simp)) hpush, stable_concat hbefore, stable_concat hsorted]
      split
      · rfl
      · exact h.stable later fun earlier hearlier => hlater earlier (List.mem_append_left _ hearlier)
  rw [noteFeedHead]
  split
  · next last hlast =>
      split
      · next hsame =>
          -- The head has been the same for less than a second.
          have hmem : last ∈ samples := List.mem_of_getLast? hlast
          refine ⟨h.sorted, fun sample hsample => List.mem_append_left _ (h.read sample hsample), ?_⟩
          intro later hlater
          rw [stable_concat hsorted]
          split
          · next hold =>
              have hall : ∀ sample ∈ samples, decide (sample.time + s.commitHorizonMs ≤ later) = true := by
                intro sample hsample
                have hle := hbefore sample hsample
                simp only [decide_eq_true_eq]
                omega
              rw [stableSample, latest, List.takeWhile_eq_self_iff.mpr hall, hlast, Option.map_some, Option.map_some, hsame.1]
          · exact h.stable later fun earlier hearlier => hlater earlier (List.mem_append_left _ hearlier)
      · exact hpushed
  · exact hpushed

theorem kept_samplesOf (s : Setting) {heads : List Sample} (hsorted : heads.Pairwise fun a b => a.time ≤ b.time) :
    Kept s heads (samplesOf s heads) := by
  induction heads using List.reverseRecOn with
  | nil => exact ⟨.nil, by simp [samplesOf], fun _ _ => rfl⟩
  | append_singleton heads head ih =>
      obtain ⟨hheads, -, hlast⟩ := List.pairwise_append.mp hsorted
      have hnote := (ih hheads).note fun earlier hearlier => hlast earlier hearlier head (List.mem_singleton_self _)
      rwa [samplesOf, List.foldl_append]

/-- **Forgetting samples changes nothing**: at any later time, those that are kept give the stable position that all heads ever read
would give. -/
theorem stable_position_exact (s : Setting) {heads : List Sample} (hsorted : heads.Pairwise fun a b => a.time ≤ b.time) {later : ℕ}
    (hlater : ∀ head ∈ heads, head.time ≤ later) (startupSeq : ℕ) :
    stableFeedPosition s later startupSeq (samplesOf s heads) = stableFeedPosition s later startupSeq heads := by
  rw [stableFeedPosition, stableFeedPosition, (kept_samplesOf s hsorted).stable later hlater]

/-! ### What one world leads to -/

def World.ledger (w : World) : Ledger := ⟨w.now, w.db.nextSeq, w.opened.map fun o => (o.record.seq, o.takenAt)⟩

/-- The registry's line of a row. -/
def World.line (w : World) (key : RowKey) : Option VersionRecord := w.db.registry.lookup key

/-- The peer has been told of a row's version. -/
def World.Told (w : World) (key : RowKey) (version : ℕ) : Prop := ∃ known ∈ w.log, known.tells = (key, version)

/-- Time passes, positions are taken, what is committed was open, and nothing that was told is forgotten. -/
structure Follows (w w' : World) : Prop where
  later : w.ledger.Later w'.ledger
  line : ∀ key r, w'.line key = some r → w.line key = some r ∨ ∃ o ∈ w.opened, o.key = key ∧ o.record = r
  log : w.log ⊆ w'.log
  since : w'.since = w.since

theorem Follows.refl (w : World) : Follows w w := ⟨.refl _, fun _ _ h => .inl h, List.Subset.refl _, rfl⟩

/-- A step of the process: the registry and its transactions stay as they are. -/
theorem Follows.process {w w' : World} (hnow : w'.now = w.now) (hdb : w'.db = w.db) (hopened : w'.opened = w.opened)
    (hlog : w.log ⊆ w'.log) (hsince : w'.since = w.since) : Follows w w' := by
  refine ⟨?_, fun key r h => .inl ?_, hlog, hsince⟩
  · rw [World.ledger, World.ledger, hnow, hdb, hopened]
    exact .refl _
  · rwa [World.line, hdb] at h

theorem World.Told.follow {w w' : World} {key : RowKey} {version : ℕ} (h : w.Told key version) (hf : Follows w w') :
    w'.Told key version := by
  obtain ⟨known, hknown, htells⟩ := h
  exact ⟨known, hf.log hknown, htells⟩

/-- Nothing appears any more up to a closed position. -/
theorem Follows.line_of_closed {w w' : World} (hf : Follows w w') {p : ℕ} (hp : w.ledger.Closed p) {key : RowKey} {r : VersionRecord}
    (hr : w'.line key = some r) (hle : r.seq ≤ p) : w.line key = some r := by
  rcases hf.line key r hr with h | ⟨o, ho, rfl, rfl⟩
  · exact h
  · have hopen : p < o.record.seq := hp.2 (o.record.seq, o.takenAt) (List.mem_map.mpr ⟨o, ho, rfl⟩)
    exact absurd hle hopen.not_ge

/-- Of every row of the catalog in a stretch of the feed the peer has been told, or will be with these entries. -/
def Holds (s : Setting) (w : World) (low high : ℕ) (entries : List Entry) : Prop :=
  ∀ key r, w.line key = some r → low < r.seq → r.seq ≤ high → key.1 ∈ s.names →
    w.Told key r.version ∨ ∃ entry ∈ entries, entry.row = key ∧ entry.version = r.version

theorem Holds.follow {s : Setting} {w w' : World} {low high p : ℕ} {entries : List Entry} (h : Holds s w low high entries)
    (hf : Follows w w') (hp : w.ledger.Closed p) (hle : high ≤ p) : Holds s w' low high entries := by
  intro key r hr hlow hhigh hname
  rcases h key r (hf.line_of_closed hp hr (hhigh.trans hle)) hlow hhigh hname with htold | hentry
  · exact .inl (htold.follow hf)
  · exact .inr hentry

theorem Holds.mono {s : Setting} {w : World} {low high high' : ℕ} {entries : List Entry} (h : Holds s w low high entries)
    (hle : high' ≤ high) : Holds s w low high' entries :=
  fun key r hr hlow hhigh hname => h key r hr hlow (hhigh.trans hle) hname

/-- Stretches that follow on each other. -/
theorem Holds.trans {s : Setting} {w : World} {low mid high : ℕ} {entries : List Entry} (h₁ : Holds s w low mid entries)
    (h₂ : Holds s w mid high entries) : Holds s w low high entries := by
  intro key r hr hlow hhigh hname
  rcases Nat.lt_or_ge mid r.seq with hlt | hge
  · exact h₂ key r hr hlt hhigh hname
  · exact h₁ key r hr hlow hge hname

/-- Once the entries are delivered, the peer has been told. -/
theorem Holds.settle {s : Setting} {w w' : World} {low high p : ℕ} {entries : List Entry} (h : Holds s w low high entries)
    (hf : Follows w w') (hp : w.ledger.Closed p) (hle : high ≤ p) (hlog : ∀ entry ∈ entries, Known.settled entry ∈ w'.log) :
    Holds s w' low high [] := by
  intro key r hr hlow hhigh hname
  rcases h.follow hf hp hle key r hr hlow hhigh hname with htold | ⟨entry, hentry, hkey, hversion⟩
  · exact .inl htold
  · exact .inl ⟨.settled entry, hlog entry hentry, by rw [Known.tells, hkey, hversion]⟩

/-- A position that the peer's may move to: it is closed, and the peer has been told of what lies before it. -/
structure Passed (s : Setting) (w : World) (p : ℕ) : Prop where
  closed : w.ledger.Closed p
  told : Holds s w w.since p []

theorem Passed.follow {s : Setting} {w w' : World} {p : ℕ} (h : Passed s w p) (hf : Follows w w') : Passed s w' p :=
  ⟨h.closed.later hf.later, hf.since ▸ h.told.follow hf h.closed le_rfl⟩

/-! ### The invariant -/

/-- What was sent of a row, the peer was told of. -/
def SentTold (w : World) (sent : Table RowKey Sent) : Prop := ∀ key known, sent.lookup key = some known → w.Told key known.version

structure SweepOk (s : Setting) (w : World) (sweep : Sweep) : Prop where
  closed : w.ledger.Closed sweep.stable
  told : Holds s w w.since (min sweep.pos sweep.stable) []

/-- A batch of the feed that is under way. -/
structure BatchOk (w : World) (batch : FeedBatch) : Prop where
  seq : ∀ entry ∈ batch.entries, entry.seq.isSome
  skipped : ∀ skip ∈ batch.skipped, w.Told skip.1 skip.2.version

/-- The rows up to the position of the link that the walk has not come to. -/
structure WalkOk (s : Setting) (w : World) (walk : Walk) (entries : List Entry) : Prop where
  names : ∀ name, walk.position.table = some name → name ∈ s.names ∧ walk.names = s.names
  ahead : ∀ key r, w.line key = some r → r.seq ≤ w.since → key.1 ∈ s.names →
    w.Told key r.version ∨ (∃ entry ∈ entries, entry.row = key ∧ entry.version = r.version) ∨ walk.Ahead key

/-- How far a batch of the sweep reaches. -/
def reach (sweep : Sweep) (batch : FeedBatch) : ℕ := if batch.truncated then min batch.readTo sweep.stable else sweep.stable

theorem reach_le (sweep : Sweep) (batch : FeedBatch) : reach sweep batch ≤ sweep.stable := by
  rw [reach]
  split
  · exact min_le_right _ _
  · exact le_rfl

/-- Where the walk stands after a batch. -/
def walkAfter (s : Setting) (next : Option TransferPosition) (returned : List RowKey) : Walk :=
  ⟨next.isSome, next.getD ⟨none, none⟩, returned, s.names⟩

def RoundOk (s : Setting) (w : World) : Round → Prop
  | .idle => True
  | .fed batch => BatchOk w batch
  | .sweeping batch => BatchOk w batch ∧ ∃ sweep, w.feed.sweep = some sweep ∧
      Holds s w sweep.pos (reach sweep batch) batch.entries
  | .persisting target => Passed s w target
  | .transferring entries next => WalkOk s w (walkAfter s next []) entries

/-- What holds of the registry and of what is open. -/
structure Grounded (s : Setting) (w : World) : Prop where
  timely : w.ledger.Timely s.commitHorizonMs
  line : ∀ key r, w.line key = some r → key.2.length = 64 ∧ r.seq < w.db.nextSeq
  opened : ∀ o ∈ w.opened, o.key.2.length = 64
  /-- A position is that of one row. -/
  owner : ∃ owner : ℕ → RowKey, (∀ key r, w.line key = some r → 0 < r.seq → owner r.seq = key) ∧
    ∀ o ∈ w.opened, owner o.record.seq = o.key

structure Inv (s : Setting) (w : World) : Prop where
  grounded : Grounded s w
  samples : ∀ sample ∈ w.samples, sample.Sound w.ledger
  startup : w.ledger.Closed w.startupSeq
  sent : SentTold w w.feed.sent
  cursor : Passed s w w.feed.cursor
  stored : Passed s w w.sentSeq
  sweep : ∀ sweep, w.feed.sweep = some sweep → SweepOk s w sweep
  round : RoundOk s w w.round
  since : w.ledger.Closed w.since
  walk : WalkOk s w w.walk []
  own : ∀ key r, Known.own key r ∈ w.log → r.origin = s.peerId ∨ r.via = some s.peerId

theorem SweepOk.follow {s : Setting} {w w' : World} {sweep : Sweep} (h : SweepOk s w sweep) (hf : Follows w w') : SweepOk s w' sweep :=
  ⟨h.closed.later hf.later, hf.since ▸ h.told.follow hf h.closed (min_le_right _ _)⟩

theorem BatchOk.follow {w w' : World} {batch : FeedBatch} (h : BatchOk w batch) (hf : Follows w w') : BatchOk w' batch :=
  ⟨h.seq, fun skip hskip => (h.skipped skip hskip).follow hf⟩

theorem WalkOk.follow {s : Setting} {w w' : World} {walk : Walk} {entries : List Entry} (h : WalkOk s w walk entries) (hf : Follows w w')
    (hsince : w.ledger.Closed w.since) : WalkOk s w' walk entries := by
  refine ⟨h.names, ?_⟩
  intro key r hr hle hname
  rw [hf.since] at hle
  rcases h.ahead key r (hf.line_of_closed hsince hr hle) hle hname with htold | hrest
  · exact .inl (htold.follow hf)
  · exact .inr hrest

/-- The stable position is closed. -/
theorem Inv.closed_stable {s : Setting} {w : World} (hw : Inv s w) :
    w.ledger.Closed (stableFeedPosition s w.now w.startupSeq w.samples) := by
  rw [stableFeedPosition]
  cases hsample : stableSample s w.now w.samples with
  | none => exact hw.startup
  | some sample =>
      obtain ⟨hmem, hold⟩ := mem_of_latest hsample
      exact Ledger.closed_of_sound hw.grounded.timely (hw.samples sample hmem) (of_decide_eq_true hold)

/-- What a step leaves alone keeps what is said of it, as long as the sweep under way is the same. -/
theorem RoundOk.follow {s : Setting} {w w' : World} {round : Round} (h : RoundOk s w round) (hf : Follows w w') (hw : Inv s w)
    (hsweep : w'.feed.sweep = w.feed.sweep) : RoundOk s w' round := by
  cases round with
  | idle => trivial
  | fed batch => exact BatchOk.follow h hf
  | sweeping batch =>
      obtain ⟨hbatch, sweep, hsome, hholds⟩ := h
      exact ⟨hbatch.follow hf, sweep, hsweep.trans hsome, hholds.follow hf (hw.sweep sweep hsome).closed (reach_le sweep batch)⟩
  | persisting target => exact Passed.follow h hf
  | transferring entries next => exact WalkOk.follow h hf hw.since

/-! ### Transactions -/

/-- A step around the process, which keeps all that the process remembers. -/
theorem Inv.around {s : Setting} {w w' : World} (hw : Inv s w) (hf : Follows w w') (hg : Grounded s w')
    (hsamples : w'.samples = w.samples) (hstartup : w'.startupSeq = w.startupSeq) (hfeed : w'.feed = w.feed)
    (hround : w'.round = w.round) (hsent : w'.sentSeq = w.sentSeq) (hwalk : w'.walk = w.walk) (hlog : w'.log = w.log) : Inv s w' where
  grounded := hg
  samples := by
    rw [hsamples]
    exact fun sample hsample => (hw.samples sample hsample).later hf.later
  startup := hstartup ▸ hw.startup.later hf.later
  sent := by
    rw [hfeed]
    exact fun key known hknown => (hw.sent key known hknown).follow hf
  cursor := hfeed ▸ hw.cursor.follow hf
  stored := hsent ▸ hw.stored.follow hf
  sweep := by
    rw [hfeed]
    exact fun sweep hsweep => (hw.sweep sweep hsweep).follow hf
  round := hround ▸ hw.round.follow hf hw (by rw [hfeed])
  since := hf.since ▸ hw.since.later hf.later
  walk := hwalk ▸ hw.walk.follow hf hw.since
  own := hlog ▸ hw.own

theorem inv_tick {s : Setting} {w : World} {now : ℕ} (hw : Inv s w) (hnow : w.now ≤ now)
    (hopen : ∀ o ∈ w.opened, now < o.takenAt + s.commitHorizonMs) : Inv s { w with now } := by
  refine hw.around ⟨⟨hnow, le_rfl, fun _ h => .inl h⟩, fun _ _ h => .inl h, List.Subset.refl _, rfl⟩ ?_ rfl rfl rfl rfl rfl rfl rfl
  refine ⟨?_, hw.grounded.line, hw.grounded.opened, hw.grounded.owner⟩
  intro o ho
  obtain ⟨open', hmem, rfl⟩ := List.mem_map.mp ho
  have htimely := hw.grounded.timely _ (List.mem_map_of_mem hmem)
  exact ⟨htimely.1, htimely.2.1.trans hnow, hopen open' hmem⟩

theorem inv_write {s : Setting} {w : World} {transaction : ℕ} {key : RowKey} {record : VersionRecord} (hw : Inv s w)
    (hseq : w.db.nextSeq ≤ record.seq) (hlength : key.2.length = 64) :
    Inv s { w with
      db := { w.db with nextSeq := record.seq + 1 }
      opened := w.opened ++ [⟨transaction, key, record, w.now⟩] } := by
  have hnext : w.db.nextSeq ≤ record.seq + 1 := hseq.trans (Nat.le_succ _)
  refine hw.around ⟨⟨le_rfl, hnext, ?_⟩, fun _ _ h => .inl h, List.Subset.refl _, rfl⟩ ?_ rfl rfl rfl rfl rfl rfl rfl
  · intro o ho
    rw [World.ledger, List.map_append, List.mem_append] at ho
    rcases ho with hold | hnew
    · exact .inl hold
    · rw [List.map_singleton, List.mem_singleton] at hnew
      exact .inr (hnew ▸ hseq)
  obtain ⟨owner, hline, hopened⟩ := hw.grounded.owner
  refine ⟨?_, fun key r hr => ⟨(hw.grounded.line key r hr).1, (hw.grounded.line key r hr).2.trans_le hnext⟩, ?_,
    Function.update owner record.seq key, ?_, ?_⟩
  · intro o ho
    rw [World.ledger, List.map_append, List.mem_append] at ho
    rcases ho with hold | hnew
    · have htimely := hw.grounded.timely o hold
      exact ⟨htimely.1.trans_le hnext, htimely.2⟩
    · rw [List.map_singleton, List.mem_singleton] at hnew
      have hhorizon := s.commitHorizonMs_ge
      exact hnew ▸ ⟨Nat.lt_succ_self _, le_rfl, by simp only [World.ledger]; omega⟩
  · intro o ho
    rcases List.mem_append.mp ho with hold | hnew
    · exact hw.grounded.opened o hold
    · exact List.mem_singleton.mp hnew ▸ hlength
  · -- The position is a new one.
    intro key' r hr hpos
    have hlt := (hw.grounded.line key' r hr).2.trans_le hseq
    rw [Function.update_of_ne hlt.ne]
    exact hline key' r hr hpos
  · intro o ho
    rcases List.mem_append.mp ho with hold | hnew
    · have hlt : o.record.seq < record.seq := (hw.grounded.timely _ (List.mem_map_of_mem hold)).1.trans_le hseq
      rw [Function.update_of_ne hlt.ne]
      exact hopened o hold
    · rw [List.mem_singleton.mp hnew]
      exact Function.update_self ..

/-- What a transaction leaves in the registry was there, or was written by it. -/
theorem line_apply {w : World} {transaction : ℕ} {key : RowKey} {r : VersionRecord}
    (h : (w.apply transaction).registry.lookup key = some r) :
    w.line key = some r ∨ ∃ o ∈ w.opened, o.key = key ∧ o.record = r := by
  have hall : ∀ registry : Table RowKey VersionRecord, (∀ key r, registry.lookup key = some r →
      w.line key = some r ∨ ∃ o ∈ w.opened, o.key = key ∧ o.record = r) → ∀ o ∈ w.opened, ∀ key r,
      (registry.insert o.key o.record).lookup key = some r → w.line key = some r ∨ ∃ o ∈ w.opened, o.key = key ∧ o.record = r := by
    intro registry hregistry o ho key r hr
    rw [Table.lookup_insert_of] at hr
    split at hr
    · next heq =>
        cases hr
        exact .inr ⟨o, ho, heq.symm, rfl⟩
    · exact hregistry key r hr
  have hloop := foldl_invariant (P := fun registry : Table RowKey VersionRecord => ∀ key r, registry.lookup key = some r →
      w.line key = some r ∨ ∃ o ∈ w.opened, o.key = key ∧ o.record = r)
    (f := fun registry o => registry.insert o.key o.record) (l := w.opened.filter fun o => o.transaction = transaction)
    (fun registry o ho hregistry => hall registry hregistry o (List.mem_of_mem_filter ho)) (s := w.db.registry) fun _ _ hr => .inl hr
  exact hloop key r h

/-- A registry with less open than before, and nothing that was neither there nor open. -/
theorem Inv.settle {s : Setting} {w : World} (hw : Inv s w) {db : Database} {opened : List OpenWrite} (hnext : db.nextSeq = w.db.nextSeq)
    (hopened : opened ⊆ w.opened)
    (hline : ∀ key r, db.registry.lookup key = some r → w.line key = some r ∨ ∃ o ∈ w.opened, o.key = key ∧ o.record = r) :
    Inv s { w with db := db, opened := opened } := by
  have hpositions : ∀ o ∈ opened.map fun o => (o.record.seq, o.takenAt), o ∈ w.ledger.opened := by
    intro o ho
    obtain ⟨write, hwrite, rfl⟩ := List.mem_map.mp ho
    exact List.mem_map_of_mem (hopened hwrite)
  obtain ⟨owner, hregistry, howner⟩ := hw.grounded.owner
  refine hw.around ⟨⟨le_rfl, hnext.ge, fun o ho => .inl (hpositions o ho)⟩, hline, List.Subset.refl _, rfl⟩ ?_
    rfl rfl rfl rfl rfl rfl rfl
  refine ⟨?_, ?_, fun o ho => hw.grounded.opened o (hopened ho), owner, ?_, fun o ho => howner o (hopened ho)⟩
  · intro o ho
    have htimely := hw.grounded.timely o (hpositions o ho)
    exact ⟨htimely.1.trans_eq hnext.symm, htimely.2⟩
  · intro key r hr
    change _ ∧ r.seq < db.nextSeq
    rw [hnext]
    rcases hline key r hr with hold | ⟨o, ho, rfl, rfl⟩
    · exact hw.grounded.line key r hold
    · exact ⟨hw.grounded.opened o ho, (hw.grounded.timely _ (List.mem_map_of_mem ho)).1⟩
  · intro key r hr hpos
    rcases hline key r hr with hold | ⟨o, ho, rfl, rfl⟩
    · exact hregistry key r hold hpos
    · exact howner o ho

/-! ### Reading a batch -/

theorem mem_rowsBeyond {db : Database} {position : ℕ} {row : RowKey × VersionRecord} :
    row ∈ rowsBeyond db position ↔ db.registry.lookup row.1 = some row.2 ∧ position < row.2.seq := by
  rw [rowsBeyond, List.mem_insertionSort, List.mem_filter, decide_eq_true_eq, ← Table.mem_toList]

theorem pairwise_rowsBeyond (db : Database) (position : ℕ) : (rowsBeyond db position).Pairwise fun a b => a.2.seq ≤ b.2.seq :=
  List.pairwise_insertionSort (r := fun a b : RowKey × VersionRecord => a.2.seq ≤ b.2.seq) _

/-- The furthest position is that of a row, or where it began. -/
theorem foldl_readTo (rows : List (RowKey × VersionRecord)) (position : ℕ) :
    rows.foldl (fun readTo row => max readTo row.2.seq) position = position ∨
      ∃ row ∈ rows, rows.foldl (fun readTo row => max readTo row.2.seq) position = row.2.seq := by
  induction rows generalizing position with
  | nil => exact .inl rfl
  | cons row rows ih =>
      rw [List.foldl_cons]
      rcases ih (max position row.2.seq) with h | ⟨other, hother, h⟩
      · rcases max_choice position row.2.seq with hmax | hmax
        · exact .inl (h.trans hmax)
        · exact .inr ⟨row, List.mem_cons_self, h.trans hmax⟩
      · exact .inr ⟨other, List.mem_cons_of_mem _ hother, h⟩

/-- **A read covers its stretch**: a row beyond the position is read, if it does not lie beyond a batch that was cut off. -/
theorem mem_readFeed {s : Setting} {w : World} (hg : Grounded s w) {position : ℕ} {key : RowKey} {r : VersionRecord}
    (hr : w.line key = some r) (hpos : position < r.seq)
    (hto : (readFeed s w.db position).2 = true →
      r.seq ≤ (readFeed s w.db position).1.foldl (fun readTo row => max readTo row.2.seq) position) :
    (key, r) ∈ (readFeed s w.db position).1 := by
  have hmem : (key, r) ∈ rowsBeyond w.db position := mem_rowsBeyond.mpr ⟨hr, hpos⟩
  by_cases hcut : s.batchSize < (rowsBeyond w.db position).length
  · have hle := hto (decide_eq_true hcut)
    rw [← List.take_append_drop s.batchSize (rowsBeyond w.db position), List.mem_append] at hmem
    rcases hmem with htaken | hleft
    · exact htaken
    -- A row behind the batch with the batch's last position would be the row with that position.
    have hsorted := pairwise_rowsBeyond w.db position
    rw [← List.take_append_drop s.batchSize (rowsBeyond w.db position), List.pairwise_append] at hsorted
    rcases foldl_readTo (readFeed s w.db position).1 position with heq | ⟨row, hrow, heq⟩
    · exact absurd (heq ▸ hle) hpos.not_ge
    have hsame : row.2.seq = r.seq := le_antisymm (hsorted.2.2 row hrow _ hleft) (heq ▸ hle)
    have hline := (mem_rowsBeyond.mp (List.mem_of_mem_take hrow)).1
    obtain ⟨owner, howner, -⟩ := hg.owner
    have hkey : row.1 = key := by
      rw [← howner key r hr (by omega), ← hsame]
      exact (howner row.1 row.2 hline (by omega)).symm
    rw [hkey] at hline
    have hrecord : row.2 = r := Option.some.inj (hline.symm.trans hr)
    rwa [← hkey, ← hrecord]
  · rw [readFeed, List.take_of_length_le (not_lt.mp hcut)]
    exact hmem

theorem name_of_table? {s : Setting} {name : String} {table : TableInfo} (h : s.table? name = some table) : table.name = name := by
  have := List.find?_some h
  simpa using this

theorem table?_of_mem {s : Setting} {name : String} (h : name ∈ s.names) : s.table? name ≠ none := by
  obtain ⟨table, htable, hname⟩ := List.mem_map.mp h
  intro hnone
  have := List.find?_eq_none.mp hnone table htable
  exact this (decide_eq_true hname)

/-- What becomes of a row of the catalog: it was sent in this version, the peer has it, or it is delivered. -/
theorem verdict_cases {s : Setting} (startupSeq : ℕ) (sent : Table RowKey Sent) {key : RowKey} (r : VersionRecord) (hname : key.1 ∈ s.names) :
    (∃ known, sent.lookup key = some known ∧ known.version = r.version) ∨ verdict s startupSeq sent (key, r) = .peerHasIt ∨
      ∃ entry, verdict s startupSeq sent (key, r) = .toDeliver entry ∧ entry.row = key ∧ entry.version = r.version := by
  cases htable : s.table? key.1 with
  | none => exact absurd htable (table?_of_mem hname)
  | some table =>
      simp only [verdict, htable]
      by_cases hsent : (sent.lookup key).any (fun known => known.version = r.version) = true
      · cases hknown : sent.lookup key with
        | none => rw [hknown] at hsent; cases hsent
        | some known =>
            rw [hknown] at hsent
            exact .inl ⟨known, rfl, of_decide_eq_true hsent⟩
      rw [if_neg hsent]
      by_cases hown : r.origin = s.peerId ∨ r.via = some s.peerId
      · exact .inr (.inl (if_pos hown))
      · refine .inr (.inr ⟨_, if_neg hown, ?_, rfl⟩)
        rw [Entry.row, toEntry, name_of_table? htable]

theorem origin_of_peerHasIt {s : Setting} {startupSeq : ℕ} {sent : Table RowKey Sent} {row : RowKey × VersionRecord}
    (h : verdict s startupSeq sent row = .peerHasIt) : row.2.origin = s.peerId ∨ row.2.via = some s.peerId := by
  rw [verdict] at h
  split at h
  · cases h
  split at h
  · cases h
  split at h
  · assumption
  · cases h

theorem seq_of_verdict {s : Setting} {startupSeq : ℕ} {sent : Table RowKey Sent} {row : RowKey × VersionRecord} {entry : Entry}
    (h : verdict s startupSeq sent row = .toDeliver entry) : entry.seq = some row.2.seq := by
  rw [verdict] at h
  split at h
  · cases h
  split at h
  · cases h
  split at h
  · cases h
  · cases h
    rfl

/-- The world once a batch is read. -/
def World.reading (s : Setting) (w : World) (position : ℕ) (round : FeedBatch → Round) : World :=
  { w with
    round := round (nextFeedBatch s w.startupSeq w.db w.feed.sent position)
    log := ownRows s w.startupSeq w.db w.feed.sent position ++ w.log }

theorem follows_reading (s : Setting) (w : World) (position : ℕ) (round : FeedBatch → Round) :
    Follows w (w.reading s position round) :=
  .process rfl rfl rfl (List.subset_append_right _ _) rfl

theorem batchOk_reading (s : Setting) (w : World) (position : ℕ) (round : FeedBatch → Round) :
    BatchOk (w.reading s position round) (nextFeedBatch s w.startupSeq w.db w.feed.sent position) := by
  refine ⟨?_, ?_⟩
  · intro entry hentry
    obtain ⟨row, -, hrow⟩ := List.mem_filterMap.mp hentry
    cases hverdict : verdict s w.startupSeq w.feed.sent row with
    | toDeliver other =>
        rw [hverdict] at hrow
        cases hrow
        rw [seq_of_verdict hverdict]
        rfl
    | _ => rw [hverdict] at hrow; cases hrow
  · intro skip hskip
    obtain ⟨row, hrow, rfl⟩ := List.mem_map.mp hskip
    exact ⟨.own row.1 row.2, List.mem_append_left _ (List.mem_map_of_mem hrow), rfl⟩

/-- **A batch holds its stretch.** -/
theorem holds_reading {s : Setting} {w : World} (hw : Inv s w) (position high : ℕ) (round : FeedBatch → Round)
    (hhigh : (nextFeedBatch s w.startupSeq w.db w.feed.sent position).truncated = true →
      high ≤ (nextFeedBatch s w.startupSeq w.db w.feed.sent position).readTo) :
    Holds s (w.reading s position round) position high (nextFeedBatch s w.startupSeq w.db w.feed.sent position).entries := by
  intro key r hr hlow hle hname
  have hread : (key, r) ∈ (readFeed s w.db position).1 :=
    mem_readFeed hw.grounded hr hlow fun htruncated => hle.trans (hhigh htruncated)
  rcases verdict_cases w.startupSeq w.feed.sent r hname with ⟨known, hknown, hversion⟩ | hown | ⟨entry, hverdict, hrow, hversion⟩
  · exact .inl (hversion ▸ (hw.sent key known hknown).follow (follows_reading s w position round))
  · refine .inl ⟨.own key r, List.mem_append_left _ (List.mem_map.mpr ⟨(key, r), ?_, rfl⟩), rfl⟩
    exact List.mem_filter.mpr ⟨hread, decide_eq_true hown⟩
  · refine .inr ⟨entry, List.mem_filterMap.mpr ⟨(key, r), hread, ?_⟩, hrow, hversion⟩
    rw [hverdict]
    rfl

theorem ledger_process {w w' : World} (hnow : w'.now = w.now) (hdb : w'.db = w.db) (hopened : w'.opened = w.opened) :
    w'.ledger = w.ledger := by
  rw [World.ledger, World.ledger, hnow, hdb, hopened]

theorem Grounded.process {s : Setting} {w w' : World} (hg : Grounded s w) (hnow : w'.now = w.now) (hdb : w'.db = w.db)
    (hopened : w'.opened = w.opened) : Grounded s w' := by
  have hline : w'.line = w.line := by
    funext key
    rw [World.line, World.line, hdb]
  refine ⟨?_, ?_, ?_, ?_⟩
  · rw [ledger_process hnow hdb hopened]
    exact hg.timely
  · rw [hline, hdb]
    exact hg.line
  · rw [hopened]
    exact hg.opened
  · rw [hline, hopened]
    exact hg.owner

/-- A step of the process that keeps its samples. -/
theorem Inv.within {s : Setting} {w w' : World} (hw : Inv s w) (hnow : w'.now = w.now) (hdb : w'.db = w.db)
    (hopened : w'.opened = w.opened) (hsince : w'.since = w.since) (hsamples : w'.samples = w.samples)
    (hstartup : w'.startupSeq = w.startupSeq) (hstored : Passed s w' w'.sentSeq) (hcursor : Passed s w' w'.feed.cursor)
    (hsent : SentTold w' w'.feed.sent) (hsweep : ∀ sweep, w'.feed.sweep = some sweep → SweepOk s w' sweep)
    (hround : RoundOk s w' w'.round) (hwalk : WalkOk s w' w'.walk [])
    (hown : ∀ key r, Known.own key r ∈ w'.log → r.origin = s.peerId ∨ r.via = some s.peerId) : Inv s w' := by
  have hledger := ledger_process hnow hdb hopened
  refine ⟨hw.grounded.process hnow hdb hopened, ?_, ?_, hsent, hcursor, hstored, hsweep, hround, ?_, hwalk, hown⟩
  · rw [hledger, hsamples]
    exact hw.samples
  · rw [hledger, hstartup]
    exact hw.startup
  · rw [hledger, hsince]
    exact hw.since

theorem own_reading {s : Setting} {w : World} (hw : Inv s w) (position : ℕ) (round : FeedBatch → Round) :
    ∀ key r, Known.own key r ∈ (w.reading s position round).log → r.origin = s.peerId ∨ r.via = some s.peerId := by
  intro key r hknown
  rcases List.mem_append.mp hknown with hnew | hold
  · obtain ⟨row, hrow, heq⟩ := List.mem_map.mp hnew
    cases heq
    exact origin_of_peerHasIt (of_decide_eq_true (List.mem_filter.mp hrow).2)
  · exact hw.own key r hold

theorem inv_reading {s : Setting} {w : World} (hw : Inv s w) (position : ℕ) (round : FeedBatch → Round)
    (hround : RoundOk s (w.reading s position round) (w.reading s position round).round) : Inv s (w.reading s position round) := by
  have hf := follows_reading s w position round
  exact hw.within rfl rfl rfl rfl rfl rfl (hw.stored.follow hf) (hw.cursor.follow hf)
    (fun key known hknown => (hw.sent key known hknown).follow hf) (fun sweep hsweep => (hw.sweep sweep hsweep).follow hf) hround
    (hw.walk.follow hf hw.since) (own_reading hw position round)

/-! ### Settling a batch -/

theorem follows_tell (w : World) (delivery : Delivery) : Follows w (w.tell delivery) :=
  .process rfl rfl rfl (List.subset_append_right _ _) rfl

theorem inv_tell {s : Setting} {w : World} (hw : Inv s w) (delivery : Delivery) : Inv s (w.tell delivery) := by
  have hf := follows_tell w delivery
  refine hw.within rfl rfl rfl rfl rfl rfl (hw.stored.follow hf) (hw.cursor.follow hf)
    (fun key known hknown => (hw.sent key known hknown).follow hf) (fun sweep hsweep => (hw.sweep sweep hsweep).follow hf)
    (hw.round.follow hf hw rfl) (hw.walk.follow hf hw.since) ?_
  intro key r hknown
  rcases List.mem_append.mp hknown with hnew | hold
  · obtain ⟨entry, -, heq⟩ := List.mem_map.mp hnew
    cases heq
  · exact hw.own key r hold

theorem settled_tell {w : World} {delivery : Delivery} {entry : Entry} (h : entry ∈ delivery.settled) :
    Known.settled entry ∈ (w.tell delivery).log :=
  List.mem_append_left _ (List.mem_map_of_mem h)

/-- Other progress in memory. -/
theorem Inv.progress {s : Setting} {w : World} (hw : Inv s w) (feed : FeedProgress) (round : Round) (hcursor : Passed s w feed.cursor)
    (hsent : SentTold w feed.sent) (hsweep : ∀ sweep, feed.sweep = some sweep → SweepOk s w sweep)
    (hround : RoundOk s { w with feed := feed, round := round } round) : Inv s { w with feed := feed, round := round } := by
  have hf : Follows w { w with feed := feed, round := round } := .process rfl rfl rfl (List.Subset.refl _) rfl
  exact hw.within rfl rfl rfl rfl rfl rfl (hw.stored.follow hf) (hcursor.follow hf)
    (fun key known hknown => (hsent key known hknown).follow hf) (fun sweep h => (hsweep sweep h).follow hf) hround
    (hw.walk.follow hf hw.since) hw.own

theorem Inv.toIdle {s : Setting} {w : World} (hw : Inv s w) : Inv s w.idle :=
  hw.progress w.feed .idle hw.cursor hw.sent hw.sweep trivial

theorem sentTold_empty (w : World) : SentTold w ∅ := by
  intro key known hknown
  cases hknown

theorem sentTold_insert {w : World} {sent : Table RowKey Sent} (h : SentTold w sent) {key : RowKey} {known : Sent}
    (htold : w.Told key known.version) : SentTold w (sent.insert key known) := by
  intro key' known' hknown
  rw [Table.lookup_insert_of] at hknown
  split at hknown
  · next heq =>
      cases hknown
      exact heq ▸ htold
  · exact h key' known' hknown

theorem sentTold_keep {w : World} {sent : Table RowKey Sent} (h : SentTold w sent) (p : RowKey → Sent → Bool) :
    SentTold w (sent.keep p) :=
  fun key known hknown => h key known (Table.lookup_keep.mp hknown).1

/-- What is remembered of a batch, the peer has been told of. -/
theorem sentTold_remember {w : World} {feed : FeedProgress} {batch : FeedBatch} {delivery : Option Delivery} (h : SentTold w feed.sent)
    (hbatch : BatchOk w batch) (hsettled : ∀ d ∈ delivery, ∀ entry ∈ d.settled, Known.settled entry ∈ w.log) :
    SentTold w (remember feed batch delivery).1.sent := by
  have hentries : SentTold w (((delivery.map Delivery.settled).getD []).foldl (fun sent entry =>
      match entry.seq with
      | some seq => sent.insert entry.row ⟨entry.version, seq⟩
      | none => sent) feed.sent) := by
    refine foldl_invariant (P := fun sent : Table RowKey Sent => SentTold w sent) ?_ h
    intro sent entry hentry hsent
    cases hseq : entry.seq with
    | none => exact hsent
    | some seq =>
        cases delivery with
        | none => cases hentry
        | some d => exact sentTold_insert hsent ⟨.settled entry, hsettled d rfl entry hentry, rfl⟩
  refine foldl_invariant (P := fun sent : Table RowKey Sent => SentTold w sent) ?_ hentries
  intro sent skip hskip hsent
  exact sentTold_insert hsent (hbatch.skipped skip hskip)

/-- A delivered batch: what is remembered of it, and that all of it is settled if the round goes on. -/
theorem settleBatch_ok {w : World} (feed : FeedProgress) {batch : FeedBatch} {delivery : Delivery} (h : SentTold w feed.sent)
    (hbatch : BatchOk w batch) (hsettled : ∀ entry ∈ delivery.settled, Known.settled entry ∈ w.log)
    (hall : (delivery.settled ++ delivery.unsettled).Perm batch.entries) :
    (settleBatch feed batch delivery).1.cursor = feed.cursor ∧ (settleBatch feed batch delivery).1.sweep = feed.sweep ∧
      SentTold w (settleBatch feed batch delivery).1.sent ∧
      ((settleBatch feed batch delivery).2 = true → ∀ entry ∈ batch.entries, entry ∈ delivery.settled) := by
  have hsent : SentTold w (remember feed batch (some delivery)).1.sent :=
    sentTold_remember h hbatch fun d hd => by cases hd; exact hsettled
  cases hfirst : (remember feed batch (some delivery)).2 with
  | some first =>
      have hsettle : settleBatch feed batch delivery =
          ({ (remember feed batch (some delivery)).1 with
            readTo := if first ≤ (remember feed batch (some delivery)).1.readTo then first - 1
              else (remember feed batch (some delivery)).1.readTo }, false) := by
        rw [settleBatch, ← Prod.eta (remember feed batch (some delivery)), hfirst]
      rw [hsettle]
      exact ⟨rfl, rfl, hsent, by simp⟩
  | none =>
      have hsettle : settleBatch feed batch delivery = ((remember feed batch (some delivery)).1, true) := by
        rw [settleBatch, ← Prod.eta (remember feed batch (some delivery)), hfirst]
      rw [hsettle]
      refine ⟨rfl, rfl, hsent, fun _ entry hentry => ?_⟩
      -- An entry that is not settled would have a position.
      rcases List.mem_append.mp (hall.symm.subset hentry) with h | hunsettled
      · exact h
      obtain ⟨seq, hseq⟩ := Option.isSome_iff_exists.mp (hbatch.seq entry hentry)
      have hmem : seq ∈ delivery.unsettled.filterMap Entry.seq := List.mem_filterMap.mpr ⟨entry, hunsettled, hseq⟩
      have hnil : delivery.unsettled.filterMap Entry.seq = [] := List.min?_eq_none_iff.mp hfirst
      rw [hnil] at hmem
      cases hmem

theorem inv_afterFeed {s : Setting} {w : World} (hw : Inv s w) {batch : FeedBatch} (hbatch : BatchOk w batch) {result : Option Delivery}
    (hall : ∀ delivery, result = some delivery → (delivery.settled ++ delivery.unsettled).Perm batch.entries) :
    Inv s (w.afterFeed batch result) := by
  cases result with
  | none => exact hw.toIdle
  | some delivery =>
      have htold := inv_tell hw delivery
      obtain ⟨hcursor, hsweep, hsent, -⟩ := settleBatch_ok w.feed htold.sent (hbatch.follow (follows_tell w delivery))
        (fun entry hentry => settled_tell hentry) (hall delivery rfl)
      rw [World.afterFeed]
      split
      · next feed heq =>
          rw [heq] at hcursor hsweep hsent
          exact htold.progress feed .idle (hcursor ▸ htold.cursor) hsent (hsweep ▸ htold.sweep) trivial
      · next feed heq =>
          rw [heq] at hcursor hsweep hsent
          exact htold.progress { feed with readTo := max feed.readTo batch.readTo, pendingSince := none } .idle
            (hcursor ▸ htold.cursor) hsent (hsweep ▸ htold.sweep) trivial

/-! ### The sweep -/

/-- A sweep that has got further. -/
theorem SweepOk.advance {s : Setting} {w : World} {sweep : Sweep} (h : SweepOk s w sweep) {high : ℕ} (hhigh : high ≤ sweep.stable)
    (hholds : Holds s w sweep.pos high []) : Holds s w w.since high [] := by
  intro key r hr hlow hle hname
  rcases Nat.lt_or_ge sweep.pos r.seq with hlt | hge
  · exact hholds key r hr hlt hle hname
  · exact h.told key r hr hlow (le_min hge (hle.trans hhigh)) hname

theorem inv_afterSweepBatch {s : Setting} {w : World} (hw : Inv s w) {sweep : Sweep} {batch : FeedBatch}
    (hsweep : SweepOk s w sweep) (hholds : Holds s w sweep.pos (reach sweep batch) []) : Inv s (w.afterSweepBatch sweep batch) := by
  have hreach := hsweep.advance (reach_le sweep batch) hholds
  rw [World.afterSweepBatch]
  split
  · next hcontinue =>
      refine hw.progress { w.feed with sweep := some { sweep with pos := batch.readTo } } .idle hw.cursor hw.sent ?_ trivial
      intro other hother
      cases hother
      refine ⟨hsweep.closed, ?_⟩
      rwa [reach, if_pos hcontinue.1] at hreach
  · next hend =>
      -- The sweep read up to where it was to end.
      have htarget : min sweep.stable sweep.upTo ≤ reach sweep batch := by
        rw [reach]
        split
        · next htruncated =>
            have hpos : sweep.upTo ≤ batch.readTo := not_lt.mp fun hlt => hend ⟨htruncated, hlt⟩
            exact le_min ((min_le_right _ _).trans hpos) (min_le_left _ _)
        · exact min_le_left _ _
      have hpassed : Passed s w (min sweep.stable sweep.upTo) :=
        ⟨hsweep.closed.mono (min_le_left _ _), hreach.mono htarget⟩
      dsimp only
      split
      · exact hw.progress { w.feed with sweep := none, lastSweepAt := w.now } .idle hw.cursor hw.sent (by simp) trivial
      · refine hw.progress (moveCursor w.now { w.feed with sweep := none, lastSweepAt := w.now } (min sweep.stable sweep.upTo))
          (.persisting (min sweep.stable sweep.upTo)) hpassed (sentTold_keep hw.sent _) (by simp [moveCursor]) ?_
        exact hpassed.follow (.process rfl rfl rfl (List.Subset.refl _) rfl)

theorem inv_afterSweep {s : Setting} {w : World} (hw : Inv s w) {sweep : Sweep} {batch : FeedBatch} (hsome : w.feed.sweep = some sweep)
    (hbatch : BatchOk w batch) (hholds : Holds s w sweep.pos (reach sweep batch) batch.entries) {result : Option Delivery}
    (hall : ∀ delivery, result = some delivery → (delivery.settled ++ delivery.unsettled).Perm batch.entries) :
    Inv s (w.afterSweep sweep batch result) := by
  cases result with
  | none => exact hw.toIdle
  | some delivery =>
      have hf := follows_tell w delivery
      have htold := inv_tell hw delivery
      obtain ⟨hcursor, hsweep, hsent, hsettled⟩ := settleBatch_ok w.feed htold.sent (hbatch.follow hf)
        (fun entry hentry => settled_tell hentry) (hall delivery rfl)
      rw [World.afterSweep]
      split
      · next feed heq =>
          rw [heq] at hcursor hsweep hsent
          exact htold.progress feed .idle (hcursor ▸ htold.cursor) hsent (hsweep ▸ htold.sweep) trivial
      · next feed heq =>
          rw [heq] at hcursor hsweep hsent hsettled
          have hround : RoundOk s { w.tell delivery with feed := feed } w.round :=
            htold.round.follow (.process rfl rfl rfl (List.Subset.refl _) rfl) htold hsweep
          have hinv := htold.progress feed w.round (hcursor ▸ htold.cursor) hsent (hsweep ▸ htold.sweep) hround
          have hsame : Follows (w.tell delivery) { w.tell delivery with feed := feed } := .process rfl rfl rfl (List.Subset.refl _) rfl
          refine inv_afterSweepBatch hinv ((htold.sweep sweep hsome).follow hsame) ?_
          refine (hholds.settle hf (hw.sweep sweep hsome).closed (reach_le sweep batch) ?_).follow hsame
            ((hw.sweep sweep hsome).closed.later hf.later) (reach_le sweep batch)
          exact fun entry hentry => settled_tell (hsettled rfl entry hentry)

/-! ### The walk -/

theorem ahead_congr {walk walk' : Walk} {key : RowKey} (h : walk.Ahead key) (hactive : walk'.active = walk.active)
    (hposition : walk'.position = walk.position) (hnames : walk'.names = walk.names) : walk'.Ahead key := by
  obtain ⟨ha, hn, hp⟩ := h
  refine ⟨hactive.trans ha, ?_, ?_⟩
  · rw [hposition]
    exact hn
  · rw [hposition, hnames]
    exact hp

theorem line_of_pending {db : Database} {tables : List TableInfo} {after : String} {entry : Entry} (h : entry ∈ pending db tables after) :
    ∃ r, db.registry.lookup entry.row = some r ∧ entry.version = r.version := by
  induction tables generalizing after with
  | nil => simp [pending] at h
  | cons table tables ih =>
      rw [pending, List.mem_append, List.mem_map] at h
      rcases h with ⟨row, hrow, rfl⟩ | h
      · exact ⟨row.2, (mem_rowsAfter.mp hrow).1, rfl⟩
      · exact ih h

/-- The step of the walk that a world is about to take. -/
def transferStep {s : Setting} {w : World} (hg : Grounded s w) : TransferStep where
  catalog := s.catalog
  db := w.db
  limit := s.batchSize
  settled := true
  names_nodup := s.names_nodup
  hash_length := fun e he => (hg.line e.1 e.2 (Table.mem_toList.mp he)).1
  limit_ge := s.batchSize_ge
  limit_le := s.batchSize_le

/-- Under one catalog, a walk resumes where it stopped. -/
theorem resumable {s : Setting} {w : World} (hg : Grounded s w) {walk : Walk}
    (hnames : ∀ name, walk.position.table = some name → name ∈ s.names ∧ walk.names = s.names) : walk.Resumable (transferStep hg) := by
  intro name hname table htable _
  obtain ⟨hmem, heq⟩ := hnames name hname
  have hplace := Walk.place_resume (a := transferStep hg) hname hmem
  have hindex : ((transferStep hg).catalog.take (resume (transferStep hg).catalog walk.position).1).length = s.names.idxOf name :=
    congrArg Prod.fst (toLex.injective hplace)
  refine .inl ?_
  obtain ⟨i, hi, hget⟩ := List.mem_iff_getElem.mp htable
  have hlt : i < s.names.idxOf name := hindex ▸ hi
  have hi' : i < s.names.length := hlt.trans (List.idxOf_lt_length_of_mem hmem)
  have hname' : s.names[i] = table.name := by
    rw [← hget, List.getElem_take]
    exact List.getElem_map ..
  have hown : s.names.idxOf s.names[i] = i := s.names_nodup.idxOf_getElem i hi'
  rw [heq, ← hname', hown]
  exact hlt

theorem walkOk_readTransfer {s : Setting} {w w' : World} (hw : Inv s w) (hf : Follows w w') (hactive : w.walk.active = true) :
    WalkOk s w' (walkAfter s (readTransfer s.catalog w.db w.walk.position s.batchSize).2 [])
      (readTransfer s.catalog w.db w.walk.position s.batchSize).1 := by
  set a := transferStep hw.grounded with ha
  set read := readTransfer s.catalog w.db w.walk.position s.batchSize with hread
  have hentries : (∀ entry ∈ read.1, entry ∈ a.left w.walk.position) ∧
      ∀ position, read.2 = some position → ∃ last ∈ read.1, position = last.position := by
    rcases a.readTransfer_cases w.walk.position with heq | ⟨front, last, rest, hleft, heq⟩
    · rw [show read = _ from heq]
      exact ⟨fun _ h => h, nofun⟩
    · rw [show read = _ from heq]
      refine ⟨fun entry hentry => ?_, fun position hposition => ⟨last, by simp, by cases hposition; rfl⟩⟩
      rw [hleft, List.append_cons]
      exact List.mem_append_left _ hentry
  refine ⟨?_, ?_⟩
  · intro name hname
    cases hnext : read.2 with
    | none => rw [walkAfter, hnext] at hname; cases hname
    | some position =>
        obtain ⟨last, hlast, rfl⟩ := hentries.2 position hnext
        rw [walkAfter, hnext] at hname
        cases hname
        exact ⟨TransferStep.mem_names_of_left (hentries.1 last hlast), rfl⟩
  · intro key r hr hle hname
    have hr₀ := hf.line_of_closed hw.since hr (hf.since ▸ hle)
    rcases hw.walk.ahead key r hr₀ (hf.since ▸ hle) hname with htold | ⟨entry, hentry, -⟩ | hahead
    · exact .inl (htold.follow hf)
    · cases hentry
    have hhas : a.Has key := ⟨hname, Option.isSome_iff_exists.mpr ⟨r, hr₀⟩⟩
    have hwalk : ({ w.walk with returned := [] } : Walk).Ahead key := ahead_congr hahead rfl rfl rfl
    have hstep : Walk.step { w.walk with returned := [] } a = some ⟨read.2.isSome, read.2.getD ⟨none, none⟩,
        [] ++ read.1.map Entry.row, a.names⟩ := Walk.step_of_read hactive rfl rfl
    rcases Walk.ahead_step (.inr hwalk) (resumable hw.grounded hw.walk.names) hhas hstep with hreturned | hlater
    · rw [List.nil_append] at hreturned
      obtain ⟨entry, hentry, hrow⟩ := List.mem_map.mp hreturned
      obtain ⟨r', hr', hversion⟩ := line_of_pending (hentries.1 entry hentry)
      rw [hrow] at hr'
      have hsame : r' = r := Option.some.inj (hr'.symm.trans hr₀)
      exact .inr (.inl ⟨entry, hentry, hrow, hversion.trans (congrArg _ hsame)⟩)
    · exact .inr (.inr (ahead_congr hlater rfl rfl rfl))

theorem inv_afterTransfer {s : Setting} {w : World} (hw : Inv s w) {entries : List Entry} {next : Option TransferPosition}
    (hwalk : WalkOk s w (walkAfter s next []) entries) {result : Option Delivery}
    (hall : ∀ delivery, result = some delivery → (delivery.settled ++ delivery.unsettled).Perm entries) :
    Inv s (w.afterTransfer s entries next result) := by
  cases result with
  | none => exact hw.toIdle
  | some delivery =>
      have htold := inv_tell hw delivery
      rw [World.afterTransfer]
      split
      · next hdone =>
          obtain ⟨hnil, -⟩ := Bool.and_eq_true_iff.mp hdone
          have hf := follows_tell w delivery
          have hsettled : ∀ entry ∈ entries, entry ∈ delivery.settled := by
            intro entry hentry
            have hmem := (hall delivery rfl).symm.subset hentry
            rwa [List.isEmpty_iff.mp hnil, List.append_nil] at hmem
          have hg : Follows (w.tell delivery) ({ w.tell delivery with walk := walkAfter s next (w.walk.returned ++ entries.map Entry.row) }.idle) :=
            .process rfl rfl rfl (List.Subset.refl _) rfl
          refine htold.within rfl rfl rfl rfl rfl rfl (htold.stored.follow hg) (htold.cursor.follow hg)
            (fun key known hknown => (htold.sent key known hknown).follow hg) (fun sweep h => (htold.sweep sweep h).follow hg) trivial ?_
            htold.own
          refine ⟨hwalk.names, ?_⟩
          intro key r hr hle hname
          rcases hwalk.ahead key r hr hle hname with h | ⟨entry, hentry, hrow, hversion⟩ | hahead
          · exact .inl ((h.follow hf).follow hg)
          · refine .inl ⟨.settled entry, settled_tell (hsettled entry hentry), ?_⟩
            rw [Known.tells, hrow, hversion]
          · exact .inr (.inr (ahead_congr hahead rfl rfl rfl))
      · exact htold.toIdle

/-! ### Every step -/

theorem feedHead_lt {db : Database} (hline : ∀ key r, db.registry.lookup key = some r → key.2.length = 64 ∧ r.seq < db.nextSeq)
    (hpos : 0 < db.nextSeq) : feedHead db < db.nextSeq := by
  refine foldl_invariant (P := fun head : ℕ => head < db.nextSeq) ?_ hpos
  intro head seq hseq hhead
  obtain ⟨line, hmem, rfl⟩ := List.mem_map.mp hseq
  exact max_lt hhead (hline line.1 line.2 (Table.mem_toList.mp hmem)).2

/-- Waiting or not, the feed stands where it stood. -/
theorem shouldSendNow_feed (s : Setting) (now head : ℕ) (feed : FeedProgress) (batch : FeedBatch) :
    (shouldSendNow s now head feed batch).1.cursor = feed.cursor ∧ (shouldSendNow s now head feed batch).1.sent = feed.sent ∧
      (shouldSendNow s now head feed batch).1.sweep = feed.sweep := by
  rw [shouldSendNow]
  split
  · exact ⟨rfl, rfl, rfl⟩
  split <;> exact ⟨rfl, rfl, rfl⟩

theorem inv_restart {s : Setting} {w : World} (hw : Inv s w) (headRead : Bool) :
    Inv s { w with
      opened := [], samples := [], startupSeq := if headRead then feedHead w.db else 0,
      feed := newFeedProgress w.now w.sentSeq, round := .idle } := by
  have hpos : 0 < w.db.nextSeq := (Nat.zero_le _).trans_lt hw.startup.1
  -- First what was open is rolled back, then the memory is new.
  have hrolled : Inv s { w with db := w.db, opened := [] } := hw.settle rfl (List.nil_subset _) fun _ _ h => .inl h
  set w' : World := { w with
    opened := [], samples := [], startupSeq := if headRead then feedHead w.db else 0,
    feed := newFeedProgress w.now w.sentSeq, round := .idle }
  have hf : Follows { w with db := w.db, opened := [] } w' := .process rfl rfl rfl (List.Subset.refl _) rfl
  refine ⟨hrolled.grounded.process rfl rfl rfl, by simp [w'], ⟨?_, by simp [World.ledger, w']⟩, sentTold_empty w',
    hrolled.stored.follow hf, hrolled.stored.follow hf, nofun, trivial, hrolled.since, hrolled.walk.follow hf hrolled.since, hrolled.own⟩
  change (if headRead = true then feedHead w.db else 0) < w.db.nextSeq
  split
  · exact feedHead_lt hw.grounded.line hpos
  · exact hpos

theorem inv_activate {s : Setting} {w : World} (hw : Inv s w) {position : ℕ} (hposition : w.ledger.Closed position) :
    Inv s { w with
      sentSeq := position, since := position, feed := newFeedProgress w.now position, walk := Walk.start, log := [], round := .idle } := by
  set w' : World := { w with
    sentSeq := position, since := position, feed := newFeedProgress w.now position, walk := Walk.start, log := [], round := .idle }
  have hpassed : Passed s w' position := ⟨hposition, fun key r _ hlow hhigh _ => absurd hhigh hlow.not_ge⟩
  exact ⟨hw.grounded.process rfl rfl rfl, hw.samples, hw.startup, sentTold_empty w', hpassed, hpassed, nofun,
    trivial, hposition, ⟨nofun, fun key _ _ _ _ => .inr (.inr (Walk.ahead_start key))⟩, by simp [w']⟩

/-- **Every step keeps the invariant.** -/
theorem inv_step {s : Setting} {w w' : World} {a : Action} (hw : Inv s w) (h : step s w a = some w') : Inv s w' := by
  cases a with
  | tick now =>
      obtain ⟨hcan, hnew⟩ := Option.ite_none_right_eq_some.mp h
      cases hnew
      exact inv_tick hw hcan.1 hcan.2
  | write transaction key record =>
      obtain ⟨hcan, hnew⟩ := Option.ite_none_right_eq_some.mp h
      cases hnew
      exact inv_write hw hcan.1 hcan.2.1
  | commit transaction =>
      cases h
      exact hw.settle rfl (List.filter_subset_self _) fun key r => line_apply
  | rollback transaction =>
      cases h
      exact hw.settle rfl (List.filter_subset_self _) fun _ _ h => .inl h
  | prune delivered key =>
      obtain ⟨hcan, hnew⟩ := Option.ite_none_right_eq_some.mp h
      cases hnew
      refine hw.settle rfl (List.Subset.refl _) fun key' r hr => .inl ?_
      rw [Table.lookup_erase_of] at hr
      split at hr
      · cases hr
      · exact hr
  | readHead =>
      cases h
      have hf : Follows w { w with samples := noteFeedHead s w.now (feedHead w.db) w.samples } :=
        .process rfl rfl rfl (List.Subset.refl _) rfl
      have hpos : 0 < w.db.nextSeq := (Nat.zero_le _).trans_lt hw.startup.1
      refine ⟨hw.grounded.process rfl rfl rfl, ?_, hw.startup, fun key known hknown => (hw.sent key known hknown).follow hf,
        hw.cursor.follow hf, hw.stored.follow hf, fun sweep hsweep => (hw.sweep sweep hsweep).follow hf, hw.round.follow hf hw rfl,
        hw.since, hw.walk.follow hf hw.since, hw.own⟩
      intro sample hsample
      rcases mem_noteFeedHead hsample with hold | rfl
      · exact hw.samples sample hold
      · exact Sample.sound_now hw.grounded.timely (feedHead_lt hw.grounded.line hpos)
  | activate =>
      cases h
      exact inv_activate hw hw.closed_stable
  | resync =>
      cases h
      have hf : Follows w { w with walk := Walk.start } := .process rfl rfl rfl (List.Subset.refl _) rfl
      exact hw.within rfl rfl rfl rfl rfl rfl (hw.stored.follow hf) (hw.cursor.follow hf)
        (fun key known hknown => (hw.sent key known hknown).follow hf) (fun sweep hsweep => (hw.sweep sweep hsweep).follow hf)
        (hw.round.follow hf hw rfl) ⟨nofun, fun key _ _ _ _ => .inr (.inr (Walk.ahead_start key))⟩ hw.own
  | restart headRead =>
      cases h
      exact inv_restart hw headRead
  | reload =>
      cases hround : w.round with
      | idle =>
          simp only [step, hround, Option.some.injEq] at h
          subst h
          split
          · exact hw
          · exact hw.progress (newFeedProgress w.now w.sentSeq) .idle hw.stored (sentTold_empty w) nofun trivial
      | _ => simp only [step, hround] at h; cases h
  | readFeed head =>
      cases hround : w.round with
      | idle =>
          simp only [step, hround, Option.some.injEq] at h
          subst h
          have hnew : Inv s { w with
              feed := if head > w.feed.lastHead then { w.feed with lastNewAt := w.now, lastHead := head } else w.feed
              round := .idle } := by
            split
            · exact hw.progress { w.feed with lastNewAt := w.now, lastHead := head } .idle hw.cursor hw.sent hw.sweep trivial
            · exact hw.toIdle
          exact inv_reading hnew _ .fed (batchOk_reading ..)
      | _ => simp only [step, hround] at h; cases h
  | sendFeed head e =>
      cases hround : w.round with
      | fed batch =>
          have hbatch : BatchOk w batch := by
            have hok := hw.round
            rwa [hround] at hok
          obtain ⟨hcursor, hsent, hsweep⟩ := shouldSendNow_feed s w.now head w.feed batch
          simp only [step, hround] at h
          split at h
          · next feed heq =>
              rw [heq] at hcursor hsent hsweep
              cases h
              have hwaited : Inv s { w with feed := feed, round := .idle } :=
                hw.progress feed .idle (hcursor ▸ hw.cursor) (hsent ▸ hw.sent) (hsweep ▸ hw.sweep) trivial
              have hf : Follows w { w with feed := feed, round := .idle } := .process rfl rfl rfl (List.Subset.refl _) rfl
              exact inv_afterFeed hwaited (hbatch.follow hf) fun delivery => (deliver_accounts e s.limit _ batch.entries).1 delivery
          · next feed heq =>
              rw [heq] at hcursor hsent hsweep
              split at h
              · cases h
                exact hw.progress { (remember feed batch none).1 with readTo := max (remember feed batch none).1.readTo batch.readTo } .idle
                  (hcursor ▸ hw.cursor) (sentTold_remember (hsent ▸ hw.sent) hbatch nofun) (hsweep ▸ hw.sweep) trivial
              · cases h
                exact hw.progress feed .idle (hcursor ▸ hw.cursor) (hsent ▸ hw.sent) (hsweep ▸ hw.sweep) trivial
      | _ => simp only [step, hround] at h; cases h
  | beginSweep =>
      cases hround : w.round with
      | idle =>
          simp only [step, hround] at h
          obtain ⟨-, hnew⟩ := Option.ite_none_right_eq_some.mp h
          cases hnew
          refine hw.progress { w.feed with
            sweep := some ⟨w.feed.cursor, w.feed.readTo, stableFeedPosition s w.now w.startupSeq w.samples⟩ } .idle hw.cursor hw.sent ?_ trivial
          intro sweep hsweep
          cases hsweep
          exact ⟨hw.closed_stable, hw.cursor.told.mono (min_le_left _ _)⟩
      | _ => simp only [step, hround] at h; cases h
  | readSweep =>
      cases hround : w.round with
      | idle =>
          cases hsome : w.feed.sweep with
          | none => simp only [step, hround, hsome] at h; cases h
          | some sweep =>
              simp only [step, hround, hsome, Option.some.injEq] at h
              subst h
              refine inv_reading hw sweep.pos .sweeping ⟨batchOk_reading .., sweep, hsome, ?_⟩
              refine holds_reading hw sweep.pos _ _ fun htruncated => ?_
              rw [reach, if_pos htruncated]
              exact min_le_left _ _
      | _ => simp only [step, hround] at h; cases h
  | finishSweep e =>
      cases hround : w.round with
      | sweeping batch =>
          have hok := hw.round
          rw [hround] at hok
          obtain ⟨hbatch, sweep, hsome, hholds⟩ := hok
          simp only [step, hround, hsome] at h
          split at h
          · next hempty =>
              cases h
              rw [List.isEmpty_iff.mp hempty] at hholds
              have hremembered : Inv s { w with feed := (remember w.feed batch none).1 } :=
                hw.progress (remember w.feed batch none).1 w.round hw.cursor
                  (sentTold_remember hw.sent hbatch nofun) hw.sweep (hw.round.follow (.process rfl rfl rfl (List.Subset.refl _) rfl) hw rfl)
              have hf : Follows w { w with feed := (remember w.feed batch none).1 } := .process rfl rfl rfl (List.Subset.refl _) rfl
              exact inv_afterSweepBatch hremembered ((hw.sweep sweep hsome).follow hf)
                (hholds.follow hf (hw.sweep sweep hsome).closed (reach_le sweep batch))
          · cases h
            exact inv_afterSweep hw hsome hbatch hholds fun delivery => (deliver_accounts e s.limit false batch.entries).1 delivery
      | _ => simp only [step, hround] at h; cases h
  | persist stored =>
      cases hround : w.round with
      | persisting target =>
          simp only [step, hround, Option.some.injEq] at h
          subst h
          have htarget : Passed s w target := by
            have hok := hw.round
            rwa [hround] at hok
          have hnew : Passed s w (if stored ∧ w.sentSeq < target then target else w.sentSeq) := by
            split
            · exact htarget
            · exact hw.stored
          have hf : Follows w ({ w with sentSeq := if stored ∧ w.sentSeq < target then target else w.sentSeq }.idle) :=
            .process rfl rfl rfl (List.Subset.refl _) rfl
          exact hw.within rfl rfl rfl rfl rfl rfl (hnew.follow hf) (hw.cursor.follow hf)
            (fun key known hknown => (hw.sent key known hknown).follow hf) (fun sweep hsweep => (hw.sweep sweep hsweep).follow hf) trivial
            (hw.walk.follow hf hw.since) hw.own
      | _ => simp only [step, hround] at h; cases h
  | readTransfer =>
      cases hround : w.round with
      | idle =>
          simp only [step, hround] at h
          obtain ⟨hactive, hnew⟩ := Option.ite_none_right_eq_some.mp h
          cases hnew
          exact hw.progress w.feed (.transferring _ _) hw.cursor hw.sent hw.sweep
            (walkOk_readTransfer hw (.process rfl rfl rfl (List.Subset.refl _) rfl) hactive)
      | _ => simp only [step, hround] at h; cases h
  | sendTransfer head e =>
      cases hround : w.round with
      | transferring entries next =>
          have hwalk : WalkOk s w (walkAfter s next []) entries := by
            have hok := hw.round
            rwa [hround] at hok
          simp only [step, hround] at h
          split at h
          · next hempty =>
              cases h
              refine inv_afterTransfer hw hwalk fun delivery hdelivery => ?_
              cases hdelivery
              rw [List.isEmpty_iff.mp hempty]
              exact .nil
          · cases h
            exact inv_afterTransfer hw hwalk fun delivery => (deliver_accounts e s.limit _ entries).1 delivery
      | _ => simp only [step, hround] at h; cases h

/-! ### Runs -/

/-- A node that starts, with what its database holds: the registry, and the position stored for the peer. -/
structure Boot where
  db : Database
  now : ℕ
  sentSeq : ℕ
  line : ∀ key r, db.registry.lookup key = some r → key.2.length = 64 ∧ r.seq < db.nextSeq
  /-- A position is that of one row. -/
  owner : ∃ owner : ℕ → RowKey, ∀ key r, db.registry.lookup key = some r → 0 < r.seq → owner r.seq = key
  sentSeq_lt : sentSeq < db.nextSeq

/-- The world at a node's start.  What lies before the stored position is left to the walk. -/
def Boot.world (b : Boot) : World where
  now := b.now
  db := b.db
  opened := []
  samples := []
  startupSeq := feedHead b.db
  feed := newFeedProgress b.now b.sentSeq
  round := .idle
  sentSeq := b.sentSeq
  walk := Walk.start
  since := b.sentSeq
  log := []

theorem inv_boot (s : Setting) (b : Boot) : Inv s b.world := by
  have hclosed : b.world.ledger.Closed b.sentSeq := ⟨b.sentSeq_lt, by simp [World.ledger, Boot.world]⟩
  have hpassed : Passed s b.world b.sentSeq := ⟨hclosed, fun key r _ hlow hhigh _ => absurd hhigh hlow.not_ge⟩
  have hstartup : b.world.ledger.Closed (feedHead b.db) :=
    ⟨feedHead_lt b.line ((Nat.zero_le _).trans_lt b.sentSeq_lt), by simp [World.ledger, Boot.world]⟩
  obtain ⟨owner, howner⟩ := b.owner
  exact ⟨⟨by simp [Ledger.Timely, World.ledger, Boot.world], b.line, by simp [Boot.world], owner, howner, by simp [Boot.world]⟩,
    by simp [Boot.world], hstartup, sentTold_empty _, hpassed, hpassed, nofun, trivial, hclosed,
    ⟨nofun, fun key _ _ _ _ => .inr (.inr (Walk.ahead_start key))⟩, by simp [Boot.world]⟩

theorem plainBatch_le : 10 ≤ 2000 := by decide

def plainSetting : Setting where
  nodeId := "A"
  peerId := "B"
  catalog := [reminders]
  names_nodup := List.nodup_singleton _
  batchSize := 10
  batchSize_ge := le_rfl
  batchSize_le := plainBatch_le
  batchIdleMs := 0
  batchMaxDelayMs := 5000
  commitHorizonMs := 5000
  commitHorizonMs_ge := le_rfl
  limit := ⟨1024 * 1024, le_rfl, by decide⟩

theorem stable_position_exact_heads : stableFeedPosition plainSetting 30000 0
    (samplesOf plainSetting [⟨0, 1⟩, ⟨400, 1⟩, ⟨2000, 4⟩, ⟨4000, 5⟩, ⟨29000, 8⟩]) =
      stableFeedPosition plainSetting 30000 0 [⟨0, 1⟩, ⟨400, 1⟩, ⟨2000, 4⟩, ⟨4000, 5⟩, ⟨29000, 8⟩] :=
  stable_position_exact plainSetting (by decide) (by decide) 0

/-- A node without any rows yet. -/
def emptyBoot : Boot where
  db := ⟨∅, ∅, 1⟩
  now := 0
  sentSeq := 0
  line := nofun
  owner := ⟨fun _ => ("", ""), nofun⟩
  sentSeq_lt := Nat.one_pos

def takenBy (results : String) : Encounters := ⟨fun _ => true, fun _ => .row [], fun _ => true, fun _ => some [], fun _ => some results⟩

def reminderKey (digit : Char) : RowKey := ("reminders", String.ofList (List.replicate 64 digit))

def reminderRecord (seq : ℕ) : VersionRecord := ⟨["r"], 1, "A", none, false, seq⟩

/-- Of two reminders, the one with the later position is committed and sent first.  The other one is picked up by the sweep, which then
moves the position past both. -/
def sweepRun : List Action :=
  [.write 7 (reminderKey '1') (reminderRecord 1), .write 8 (reminderKey '2') (reminderRecord 2), .commit 8, .readHead, .readFeed 2,
    .sendFeed 2 (takenBy "a"), .tick 4000, .commit 7, .tick 40000, .beginSweep, .readSweep, .finishSweep (takenBy "a"), .persist true]

end Pokyh.Cluster.Feed

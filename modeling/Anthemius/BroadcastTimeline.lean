import Anthemius.CheckedLoops
import Anthemius.TimelineReads

/-!
# Broadcasts from the mempool

Transactions come and go while a reader goes through the timeline, each time from the ids that the
last read has returned.
-/
namespace Anthemius.Mempool

theorem MultiBucketTimelineIndex.Advances.holds_of_lt {index later : MultiBucketTimelineIndex}
    {bucket id : ℕ} {p : TxnPointer} (h : index.Advances later) (hholds : later.Holds bucket id p)
    (hlt : ∀ timeline, index.timelines[bucket]? = some timeline → id < timeline.timelineId) :
    index.Holds bucket id p := by
  obtain ⟨timeline, htimeline, hentry⟩ := hholds
  have hbucket : bucket < index.timelines.length := by
    rw [← h.length]
    exact (List.getElem?_eq_some_iff.mp htimeline).1
  have hbefore := List.getElem?_eq_getElem hbucket
  exact ⟨_, hbefore, (h.timelines bucket _ timeline hbefore htimeline).old _ hentry
    (hlt _ hbefore)⟩

theorem MultiBucketTimelineIndex.Valid.lt_of_holds {index : MultiBucketTimelineIndex}
    {bucket id : ℕ} {p : TxnPointer} (h : index.Valid) (hholds : index.Holds bucket id p)
    {timeline : TimelineIndex} (htimeline : index.timelines[bucket]? = some timeline) :
    id < timeline.timelineId := by
  obtain ⟨other, hother, hentry⟩ := hholds
  rw [htimeline] at hother
  cases hother
  exact (h.timelines timeline (List.mem_of_getElem? htimeline)).below _ hentry

namespace TransactionStore
variable {P : Type} {s s' : TransactionStore P} {world : MempoolTransaction P → Prop}

/-! ## The timeline over calls -/

/-- Ids are not used again, and an entry that is still there has the same transaction. -/
structure Follows (s s' : TransactionStore P) : Prop where
  timeline : s.timelineIndex.Advances s'.timelineIndex
  same : ∀ bucket entry, s.timelineIndex.Holds bucket entry.1 entry.2 →
    s'.timelineIndex.Holds bucket entry.1 entry.2 → s'.txnOf entry = s.txnOf entry

theorem Follows.refl (s : TransactionStore P) : s.Follows s :=
  ⟨.refl _, fun _ _ _ _ => rfl⟩

theorem Follows.trans {s'' : TransactionStore P} (h : s.Follows s') (h' : s'.Follows s'')
    (hvalid : s.timelineIndex.Valid) : s.Follows s'' := by
  refine ⟨h.timeline.trans h'.timeline, fun bucket entry hfirst hlast => ?_⟩
  have hmiddle : s'.timelineIndex.Holds bucket entry.1 entry.2 := by
    refine h'.timeline.holds_of_lt hlast fun timeline htimeline => ?_
    have hbucket : bucket < s.timelineIndex.timelines.length := by
      rw [← h.timeline.length]
      exact (List.getElem?_eq_some_iff.mp htimeline).1
    have hbefore := List.getElem?_eq_getElem hbucket
    exact lt_of_lt_of_le (hvalid.lt_of_holds hfirst hbefore)
      (h.timeline.timelines bucket _ timeline hbefore htimeline).timelineId
  rw [h'.same bucket entry hmiddle hlast, h.same bucket entry hfirst hmiddle]

theorem Indexed.exists_of_holds (h : s.Consistent world) (hunready : Unready world)
    {bucket : ℕ} {entry : ℕ × TxnPointer} (hholds : s.timelineIndex.Holds bucket entry.1 entry.2) :
    ∃ t ∈ s.transactions, t.pointer = entry.2 := by
  obtain ⟨t, ht, hpointer, -⟩ := (h.timeline hunready _ _ _).mp hholds
  exact ⟨t, ht, hpointer⟩

theorem Follows.of_bodies (h : s.Consistent world) (h' : s'.Consistent world)
    (hunready : Unready world) (htimeline : s.timelineIndex.Advances s'.timelineIndex)
    (hbodies : ∀ t' ∈ s'.transactions, t'.pointer ∈ s.stored → ∃ a ∈ s.transactions,
      a.withState .notReady = t'.withState .notReady) : s.Follows s' := by
  refine ⟨htimeline, fun bucket entry hholds hholds' => ?_⟩
  obtain ⟨t, ht, hpointer⟩ := h.exists_of_holds hunready hholds
  obtain ⟨t', ht', hpointer'⟩ := h'.exists_of_holds hunready hholds'
  obtain ⟨a, ha, heq⟩ := hbodies t' ht' ⟨t, ht, hpointer.trans hpointer'.symm⟩
  have hsame : a.pointer = t.pointer :=
    (congrArg (fun t => t.pointer) heq).trans (hpointer'.trans hpointer.symm)
  obtain rfl := h.unique.eq ha ht hsame
  rw [txnOf, txnOf, h.getMempoolTxn_eq_some.mpr ⟨ht, hpointer⟩,
    h'.getMempoolTxn_eq_some.mpr ⟨ht', hpointer'⟩]
  exact congrArg (fun t => some t.txn) heq.symm

theorem Shrinks.follows (hshrinks : s.Shrinks s') (h : s.Consistent world)
    (h' : s'.Consistent world) (hunready : Unready world) : s.Follows s' :=
  .of_bodies h h' hunready hshrinks.timeline fun t' ht' _ => hshrinks.bodies t' ht'

theorem Inserts.follows {txn : MempoolTransaction P} {status : MempoolStatus}
    (hinserts : s.Inserts txn status s') (hfresh : txn.pointer ∉ s.stored)
    (h : s.Consistent world) (h' : s'.Consistent world) (hunready : Unready world) :
    s.Follows s' := by
  cases hinserts with
  | full out hout hcode hfull hremoves => exact hremoves.shrinks.follows h h' hunready
  | tooMany out hout hcode hremoves => exact hremoves.shrinks.follows h h' hunready
  | accepted out last hout hcode hremoves hroom hcapacity hstores hprocesses =>
    have htimeline := hprocesses.reorders.timeline
    rw [hstores.timeline] at htimeline
    refine .of_bodies h h' hunready (hremoves.shrinks.timeline.trans htimeline)
      fun t' ht' hstored => ?_
    obtain ⟨a, ha, heq⟩ := hprocesses.reorders.shrinks.bodies t' ht'
    obtain rfl | ha := (hstores.transactions a).mp ha
    · have hsame : _ = t'.pointer := congrArg (fun t => t.pointer) heq
      exact absurd (hsame ▸ hstored) hfresh
    · exact ⟨a, ((hremoves.transactions a).mp ha).1, heq⟩

theorem Performs.follows {call : StoreCall P} (hperforms : s.Performs call s')
    (h : s.Consistent world) (h' : s'.Consistent world) (hunready : Unready world) :
    s.Follows s' := by
  cases hperforms with
  | same => exact .refl s
  | insert hreplaces hremoves hinserts =>
    have hmiddle := (hreplaces.removes h).1
    refine (hremoves.shrinks.follows h hmiddle hunready).trans
      (hinserts.follows (fun hin => ?_) hmiddle h' hunready) h.timelineIndex
    rw [hremoves.stored] at hin
    exact hin.2 rfl
  | @commit account sequenceNumber _ hcommits =>
    have hnumbered : (s.withNumber account (s.committedNumber account sequenceNumber)).Consistent
        world := h.withMaps _ _
    have hfollows := hcommits.shrinks.follows hnumbered h' hunready
    exact ⟨hfollows.timeline, hfollows.same⟩
  | reject hstored hhash hremoves => exact hremoves.shrinks.follows h h' hunready
  | gc hcollects => exact hcollects.shrinks.follows h h' hunready

/-! ## Ranges -/

theorem timelineRange_eq {before after : List ℕ}
    (hbefore : before.length = s.timelineIndex.timelines.length)
    (hafter : after.length = before.length)
    (hle : ∀ bucket, before.getD bucket 0 ≤ after.getD bucket 0) :
    s.timelineRange (before.zip after) =
      some (((List.range before.length).flatMap (s.inRange before after)).filterMap s.txnOf) := by
  have hchecked : ∀ (bucket : TimelineIndex × ℕ × ℕ) txns,
      bucket.1.timelineRange bucket.2.1 bucket.2.2 = some txns ↔ bucket.2.1 ≤ bucket.2.2 ∧
        txns = (bucket.1.timeline.filter fun entry =>
          bucket.2.1 < entry.1 ∧ entry.1 ≤ bucket.2.2).map Prod.snd := by
    intro bucket txns
    rw [TimelineIndex.timelineRange]
    split
    next hlt => exact iff_of_false (by simp) fun hboth => absurd hboth.1 (Nat.not_le.mpr hlt)
    next hge =>
      rw [Option.some.injEq, eq_comm]
      exact (and_iff_right (Nat.not_lt.mp hge)).symm
  have hpairs : (before.zip after).length = s.timelineIndex.timelines.length := by
    rw [List.length_zip, hafter, min_self, hbefore]
  have hlength : (s.timelineIndex.timelines.zip (before.zip after)).length = before.length := by
    rw [List.length_zip, hpairs, min_self, hbefore]
  have hzip : ∀ bucket (h : bucket < (s.timelineIndex.timelines.zip (before.zip after)).length),
      (s.timelineIndex.timelines.zip (before.zip after))[bucket].1.timeline =
          s.timelineIndex.entries bucket ∧
        (s.timelineIndex.timelines.zip (before.zip after))[bucket].2 =
          (before.getD bucket 0, after.getD bucket 0) := by
    intro bucket h
    have hlt : bucket < before.length := hlength ▸ h
    rw [List.getElem_zip, List.getElem_zip, getD_eq_getElem hlt,
      getD_eq_getElem (hafter.symm ▸ hlt), MultiBucketTimelineIndex.entries_eq (hbefore ▸ hlt)]
    exact ⟨rfl, rfl⟩
  have hrange : s.timelineIndex.timelineRange (before.zip after) =
      some ((List.range before.length).flatMap fun bucket =>
        (s.inRange before after bucket).map Prod.snd) := by
    rw [MultiBucketTimelineIndex.timelineRange, if_pos hpairs,
      (CheckedLoops.mapM_checked hchecked _ _).mpr ⟨fun bucket hbucket => ?_, rfl⟩,
      Option.map_some, List.flatMap_def]
    · congr 2
      refine List.ext_getElem ?_ fun bucket hbucket hrange => ?_
      · rw [List.length_map, hlength, List.length_map, List.length_range]
      · obtain ⟨hentries, hids⟩ := hzip bucket (List.length_map _ ▸ hbucket)
        rw [List.getElem_map, List.getElem_map, List.getElem_range, hentries, hids]
        rfl
    · obtain ⟨i, hi, rfl⟩ := List.getElem_of_mem hbucket
      rw [(hzip i hi).2]
      exact hle i
  rw [TransactionStore.timelineRange, hrange, Option.bind_eq_bind, Option.bind_some,
    ← List.map_flatMap, List.filterMap_map]
  rfl

end TransactionStore

/-! ## Runs -/

/-- A read of a run with the store that it has read. -/
structure TimelineRead (P : Type) where
  store : TransactionStore P
  before : List ℕ
  count : ℕ
  batch : List (SignedTransaction P)
  after : List ℕ

/-- The entries of a bucket that the read passes. -/
def TimelineRead.entries {P : Type} (read : TimelineRead P) (bucket : ℕ) :
    List (ℕ × TxnPointer) :=
  read.store.inRange read.before read.after bucket

section Runs
variable {P : Type} {world : MempoolTransaction P → Prop}

/-- A run of calls and reads, each read from the ids of the one before. The last read comes
first. -/
inductive Broadcasts [DecidableEq P] (world : MempoolTransaction P → Prop) :
    TransactionStore P → List ℕ → List (TimelineRead P) → Prop
  | new (config : MempoolConfig) (overheadBytes : ℕ) {s : TransactionStore P}
    (h : TransactionStore.new config overheadBytes = some s) :
    Broadcasts world s (config.broadcastBuckets.map fun _ => 0) []
  | perform {s s' : TransactionStore P} {ids : List ℕ} {reads : List (TimelineRead P)}
    (h : Broadcasts world s ids reads) (call : StoreCall P) (hcall : call.Inserts world)
    (hs : s.perform call = some s') : Broadcasts world s' ids reads
  | read {s : TransactionStore P} {ids : List ℕ} {reads : List (TimelineRead P)}
    (h : Broadcasts world s ids reads) (count : ℕ) (hcount : 0 < count)
    {batch : List (SignedTransaction P)} {after : List ℕ}
    (hs : s.readTimeline ids count = some (batch, after)) :
    Broadcasts world s after (⟨s, ids, count, batch, after⟩ :: reads)

/-- An earlier read of a run. -/
structure TimelineRead.Past (read : TimelineRead P) (world : MempoolTransaction P → Prop)
    (s : TransactionStore P) (ids : List ℕ) : Prop where
  consistent : read.store.Consistent world
  length : read.before.length = read.store.timelineIndex.timelines.length
  readsTo : read.store.ReadsTo read.before read.count read.batch read.after
  below : ∀ bucket timeline, read.store.timelineIndex.timelines[bucket]? = some timeline →
    read.after.getD bucket 0 < timeline.timelineId
  follows : read.store.Follows s
  after_le : ∀ bucket, read.after.getD bucket 0 ≤ ids.getD bucket 0

/-- What holds along a run. -/
structure Broadcasting (world : MempoolTransaction P → Prop) (s : TransactionStore P)
    (ids : List ℕ) (reads : List (TimelineRead P)) : Prop where
  consistent : s.Consistent world
  length : ids.length = s.timelineIndex.timelines.length
  below : ∀ bucket timeline, s.timelineIndex.timelines[bucket]? = some timeline →
    ids.getD bucket 0 < timeline.timelineId
  past : ∀ read ∈ reads, read.Past world s ids
  chain : reads.Pairwise fun later earlier =>
    ∀ bucket, earlier.after.getD bucket 0 ≤ later.before.getD bucket 0
  complete : ∀ bucket id p, s.timelineIndex.Holds bucket id p → id ≤ ids.getD bucket 0 →
    ∃ read ∈ reads, (id, p) ∈ read.entries bucket

theorem Broadcasting.perform [DecidableEq P] {s s' : TransactionStore P} {ids : List ℕ}
    {reads : List (TimelineRead P)} {call : StoreCall P} (h : Broadcasting world s ids reads)
    (hunready : Unready world) (hcall : call.Inserts world) (hs : s.perform call = some s') :
    Broadcasting world s' ids reads := by
  obtain ⟨hconsistent, hperforms⟩ := h.consistent.performs hcall hs
  have hfollows := hperforms.follows h.consistent hconsistent hunready
  refine ⟨hconsistent, h.length.trans hfollows.timeline.length.symm, ?_, fun read hread => ?_,
    h.chain, fun bucket id p hholds hle => ?_⟩
  · intro bucket timeline htimeline
    have hbucket : bucket < s.timelineIndex.timelines.length := by
      rw [← hfollows.timeline.length]
      exact (List.getElem?_eq_some_iff.mp htimeline).1
    have hbefore := List.getElem?_eq_getElem hbucket
    exact lt_of_lt_of_le (h.below bucket _ hbefore)
      (hfollows.timeline.timelines bucket _ timeline hbefore htimeline).timelineId
  · have hpast := h.past read hread
    exact { hpast with
      follows := hpast.follows.trans hfollows hpast.consistent.timelineIndex }
  · -- an id that was passed is not given to a new entry
    refine h.complete bucket id p (hfollows.timeline.holds_of_lt hholds ?_) hle
    exact fun timeline htimeline => lt_of_le_of_lt hle (h.below bucket timeline htimeline)

theorem Broadcasting.read {s : TransactionStore P} {ids : List ℕ} {reads : List (TimelineRead P)}
    {count : ℕ} {batch : List (SignedTransaction P)} {after : List ℕ}
    (h : Broadcasting world s ids reads) (hreads : s.ReadsTo ids count batch after) :
    Broadcasting world s after (⟨s, ids, count, batch, after⟩ :: reads) := by
  have hbelow : ∀ bucket timeline, s.timelineIndex.timelines[bucket]? = some timeline →
      after.getD bucket 0 < timeline.timelineId := by
    intro bucket timeline htimeline
    obtain heq | ⟨p, hholds⟩ := hreads.after_eq bucket
    · rw [heq]
      exact h.below bucket timeline htimeline
    · exact h.consistent.timelineIndex.lt_of_holds hholds htimeline
  refine ⟨h.consistent, hreads.length_eq.trans h.length, hbelow, fun read hread => ?_, ?_,
    fun bucket id p hholds hle => ?_⟩
  · obtain rfl | hread := List.mem_cons.mp hread
    · exact ⟨h.consistent, h.length, hreads, hbelow, .refl s, fun _ => le_rfl⟩
    · have hpast := h.past read hread
      exact { hpast with
        after_le := fun bucket => (hpast.after_le bucket).trans (hreads.ids_le bucket) }
  · exact List.pairwise_cons.mpr ⟨fun read hread => (h.past read hread).after_le, h.chain⟩
  · by_cases hold : id ≤ ids.getD bucket 0
    · obtain ⟨read, hread, hmem⟩ := h.complete bucket id p hholds hold
      exact ⟨read, List.mem_cons_of_mem _ hread, hmem⟩
    · refine ⟨_, List.mem_cons_self, List.mem_filter.mpr ⟨?_, ?_⟩⟩
      · exact MultiBucketTimelineIndex.mem_entries.mpr hholds
      · exact decide_eq_true ⟨Nat.not_le.mp hold, hle⟩

theorem Broadcasting.new {config : MempoolConfig} {overheadBytes : ℕ} {s : TransactionStore P}
    (h : TransactionStore.new config overheadBytes = some s) :
    Broadcasting world s (config.broadcastBuckets.map fun _ => 0) [] := by
  have hok := TransactionStore.new_timelineIndex h
  obtain ⟨-, heq⟩ := MultiBucketTimelineIndex.new_eq hok
  refine ⟨.new h, ?_, fun bucket timeline htimeline => ?_, fun _ hread => ?_, .nil,
    fun bucket id p hholds _ => ?_⟩
  · rw [heq, List.length_map, List.length_map]
  · rw [heq] at htimeline
    obtain ⟨_, -, rfl⟩ := List.mem_map.mp (List.mem_of_getElem? htimeline)
    have hzero : (config.broadcastBuckets.map fun _ => 0).getD bucket 0 = 0 := by
      rw [List.getD_eq_getElem?_getD, List.getElem?_map]
      cases config.broadcastBuckets[bucket]? <;> rfl
    rw [hzero]
    exact Nat.zero_lt_one
  · cases hread
  · exact absurd hholds (MultiBucketTimelineIndex.not_holds_new hok)

theorem Broadcasts.broadcasting [DecidableEq P] {s : TransactionStore P} {ids : List ℕ}
    {reads : List (TimelineRead P)} (h : Broadcasts world s ids reads) (hunready : Unready world) :
    Broadcasting world s ids reads := by
  induction h with
  | new config overheadBytes h => exact .new h
  | perform h call hcall hs ih => exact ih.perform hunready hcall hs
  | read h count hcount hs ih =>
    obtain ⟨batch, after, hread, hreads⟩ := ih.consistent.reads hunready ih.length hcount
    rw [hs] at hread
    cases hread
    exact ih.read hreads

/-! ## What is delivered -/

/-- The entries that the read passes and that are in front of an id of a bucket. -/
def TimelineRead.inFront (read : TimelineRead P) (bucket id : ℕ) : List (ℕ × TxnPointer) :=
  (List.range read.before.length).flatMap fun bucket' =>
    (read.entries bucket').filter fun entry =>
      bucket < bucket' ∨ bucket' = bucket ∧ entry.1 < id

/-- The entry is there and not passed yet, and every transaction fits into a batch. -/
structure TimelineRead.Finds (read : TimelineRead P) (bucket id : ℕ) (p : TxnPointer) : Prop where
  holds : read.store.timelineIndex.Holds bucket id p
  ahead : read.before.getD bucket 0 < id
  fits : ∀ t ∈ read.store.transactions, t.txn.rawTxnBytesLen ≤ read.store.maxBatchBytes

/-- What the reads of a run deliver. Each batch is within the limits and has the transactions of
the entries that the read passes, from the last bucket to the first. The entries of a bucket are
passed in the order of their ids, and none is left out. An entry that is found by more reads than
there are entries in front of it is delivered by one of them. The range of a read has what is still
in the timeline. -/
structure Delivers (s : TransactionStore P) (ids : List ℕ) (reads : List (TimelineRead P)) :
    Prop where
  returns : ∀ count > 0, ∃ batch after, s.readTimeline ids count = some (batch, after)
  limits : ∀ read ∈ reads, read.batch.length ≤ read.count ∧
    min (read.batch.map (·.rawTxnBytesLen)).sum (2 ^ 64 - 1) ≤ read.store.maxBatchBytes
  batches : ∀ read ∈ reads,
    ((List.range read.before.length).reverse.flatMap read.entries).map read.store.txnOf =
      read.batch.map some
  increasing : ∀ bucket,
    ((reads.reverse.flatMap (·.entries bucket)).map Prod.fst).Pairwise (· < ·)
  complete : ∀ bucket id p, s.timelineIndex.Holds bucket id p → id ≤ ids.getD bucket 0 →
    ∃ read ∈ reads, (id, p) ∈ read.entries bucket
  delivered : ∀ bucket id p (waiting : List (TimelineRead P)),
    (∀ read ∈ waiting, read ∈ reads ∧ read.Finds bucket id p) →
    (waiting.map fun read => (read.inFront bucket id).length).sum < waiting.length →
    ∃ read ∈ waiting, (id, p) ∈ read.entries bucket
  range : ∀ read ∈ reads, s.timelineRange (read.before.zip read.after) =
    some (((List.range read.before.length).flatMap fun bucket =>
      (read.entries bucket).filter (· ∈ s.timelineIndex.entries bucket)).filterMap
        read.store.txnOf)

variable {s : TransactionStore P} {ids : List ℕ} {reads : List (TimelineRead P)}

theorem map_some_filterMap {α β : Type} {f : α → Option β} {l : List α}
    (h : ∀ a ∈ l, ∃ b, f a = some b) : l.map f = (l.filterMap f).map some := by
  induction l with
  | nil => rfl
  | cons a l ih =>
    obtain ⟨b, hb⟩ := h a List.mem_cons_self
    rw [List.map_cons, List.filterMap_cons_some hb, List.map_cons, hb,
      ih fun a' ha' => h a' (List.mem_cons_of_mem a ha')]

theorem TimelineRead.holds_of_mem {read : TimelineRead P} {bucket : ℕ} {entry : ℕ × TxnPointer}
    (h : entry ∈ read.entries bucket) :
    read.store.timelineIndex.Holds bucket entry.1 entry.2 ∧
      read.before.getD bucket 0 < entry.1 ∧ entry.1 ≤ read.after.getD bucket 0 := by
  obtain ⟨hmem, hrange⟩ := List.mem_filter.mp h
  exact ⟨MultiBucketTimelineIndex.mem_entries.mp hmem, of_decide_eq_true hrange⟩

theorem Broadcasting.batches (h : Broadcasting world s ids reads) (hunready : Unready world)
    {read : TimelineRead P} (hread : read ∈ reads) :
    ((List.range read.before.length).reverse.flatMap read.entries).map read.store.txnOf =
      read.batch.map some := by
  have hpast := h.past read hread
  rw [hpast.readsTo.batch_eq]
  refine map_some_filterMap fun entry hentry => ?_
  obtain ⟨bucket, -, hmem⟩ := List.mem_flatMap.mp hentry
  obtain ⟨t, ht, hpointer⟩ :=
    hpast.consistent.exists_of_holds hunready (TimelineRead.holds_of_mem hmem).1
  refine ⟨t.txn, ?_⟩
  rw [TransactionStore.txnOf, hpast.consistent.getMempoolTxn_eq_some.mpr ⟨ht, hpointer⟩]
  rfl

theorem Broadcasting.increasing (h : Broadcasting world s ids reads) (bucket : ℕ) :
    ((reads.reverse.flatMap (·.entries bucket)).map Prod.fst).Pairwise (· < ·) := by
  rw [List.pairwise_map, List.pairwise_flatMap, List.pairwise_reverse]
  constructor
  · intro read hread
    have hordered := (h.past read (List.mem_reverse.mp hread)).consistent.timelineIndex
    exact (List.pairwise_map.mp (hordered.ordered_entries bucket)).filter _
  · refine h.chain.imp fun {later earlier} hle x hx y hy => ?_
    have hx := (TimelineRead.holds_of_mem hx).2.2
    have hy := (TimelineRead.holds_of_mem hy).2.1
    exact lt_of_le_of_lt (hx.trans (hle bucket)) hy

theorem TimelineRead.Past.inFront_pos {read : TimelineRead P} (h : read.Past world s ids)
    {bucket id : ℕ} {p : TxnPointer} (hfinds : read.Finds bucket id p)
    (hnot : (id, p) ∉ read.entries bucket) : 0 < (read.inFront bucket id).length := by
  obtain ⟨bucket', entry, hentry, hfront⟩ :=
    h.readsTo.goesOn hfinds.fits bucket id p hfinds.holds hfinds.ahead
  have hholds := (TimelineRead.holds_of_mem hentry).1
  have hlt : bucket' < read.before.length := by
    obtain ⟨timeline, htimeline, -⟩ := hholds
    rw [h.length]
    exact (List.getElem?_eq_some_iff.mp htimeline).1
  refine List.length_pos_of_mem (a := entry) (List.mem_flatMap.mpr
    ⟨bucket', List.mem_range.mpr hlt, List.mem_filter.mpr ⟨hentry, decide_eq_true ?_⟩⟩)
  obtain hgt | ⟨rfl, hle⟩ := hfront
  · exact Or.inl hgt
  · refine Or.inr ⟨rfl, lt_of_le_of_ne hle fun heq => hnot ?_⟩
    -- the id has one entry
    subst heq
    rw [h.consistent.timelineIndex.holds_unique hfinds.holds hholds]
    exact hentry

theorem Broadcasting.delivered (h : Broadcasting world s ids reads) {bucket id : ℕ}
    {p : TxnPointer} {waiting : List (TimelineRead P)}
    (hwaiting : ∀ read ∈ waiting, read ∈ reads ∧ read.Finds bucket id p)
    (hlt : (waiting.map fun read => (read.inFront bucket id).length).sum < waiting.length) :
    ∃ read ∈ waiting, (id, p) ∈ read.entries bucket := by
  by_contra hnot
  push Not at hnot
  have hle := List.length_le_sum_of_one_le
    (waiting.map fun read => (read.inFront bucket id).length) fun n hn => by
      obtain ⟨read, hread, rfl⟩ := List.mem_map.mp hn
      obtain ⟨hpast, hfinds⟩ := hwaiting read hread
      exact (h.past read hpast).inFront_pos hfinds (hnot read hread)
  rw [List.length_map] at hle
  omega

theorem TimelineRead.Past.inRange_eq {read : TimelineRead P} (h : read.Past world s ids)
    (hs : s.Consistent world) (bucket : ℕ) :
    s.inRange read.before read.after bucket =
      (read.entries bucket).filter (· ∈ s.timelineIndex.entries bucket) := by
  have hfirst : OrderedEntries.Ordered (s.inRange read.before read.after bucket) :=
    (hs.timelineIndex.ordered_entries bucket).sublist (List.filter_sublist.map _)
  have hsecond : OrderedEntries.Ordered
      ((read.entries bucket).filter (· ∈ s.timelineIndex.entries bucket)) :=
    (h.consistent.timelineIndex.ordered_entries bucket).sublist
      ((List.filter_sublist.trans List.filter_sublist).map _)
  refine hfirst.eq_of_perm hsecond ?_
  refine (List.perm_ext_iff_of_nodup (List.Nodup.of_map _ hfirst.nodup)
    (List.Nodup.of_map _ hsecond.nodup)).mpr fun entry => ?_
  rw [TransactionStore.inRange, TimelineRead.entries, TransactionStore.inRange, List.mem_filter,
    List.mem_filter, List.mem_filter, decide_eq_true_eq, decide_eq_true_eq]
  constructor
  · rintro ⟨hmem, hrange⟩
    refine ⟨⟨?_, hrange⟩, hmem⟩
    refine MultiBucketTimelineIndex.mem_entries.mpr (h.follows.timeline.holds_of_lt
      (MultiBucketTimelineIndex.mem_entries.mp hmem) fun timeline htimeline => ?_)
    exact lt_of_le_of_lt hrange.2 (h.below bucket timeline htimeline)
  · rintro ⟨⟨-, hrange⟩, hmem⟩
    exact ⟨hmem, hrange⟩

theorem Broadcasts.delivers [DecidableEq P] (h : Broadcasts world s ids reads)
    (hunready : Unready world) : Delivers s ids reads := by
  have hrun := h.broadcasting hunready
  constructor
  case returns =>
    intro count hcount
    obtain ⟨batch, after, hread, -⟩ := hrun.consistent.reads hunready hrun.length hcount
    exact ⟨batch, after, hread⟩
  case limits =>
    intro read hread
    have hreads := (hrun.past read hread).readsTo
    exact ⟨hreads.count_le, hreads.bytes_le⟩
  case batches => exact fun read hread => hrun.batches hunready hread
  case increasing => exact hrun.increasing
  case complete => exact hrun.complete
  case delivered => exact fun bucket id p waiting => hrun.delivered
  case range =>
    intro read hread
    have hpast := hrun.past read hread
    have hlength : read.before.length = s.timelineIndex.timelines.length :=
      hpast.length.trans hpast.follows.timeline.length.symm
    rw [TransactionStore.timelineRange_eq hlength hpast.readsTo.length_eq hpast.readsTo.ids_le]
    rw [funext fun bucket => hpast.inRange_eq hrun.consistent bucket]
    refine congrArg some (List.filterMap_congr fun entry hentry => ?_)
    obtain ⟨bucket, -, hmem⟩ := List.mem_flatMap.mp hentry
    obtain ⟨hmem, hstill⟩ := List.mem_filter.mp hmem
    exact hpast.follows.same bucket entry (TimelineRead.holds_of_mem hmem).1
      (MultiBucketTimelineIndex.mem_entries.mp (of_decide_eq_true hstill))

open TransactionStore.SmallPool

/-- The first transaction of the account is broadcast. -/
theorem Broadcasts.delivers_one : ∃ (s : TransactionStore Unit) (ids : List ℕ)
    (read : TimelineRead Unit), read.batch = [(transfer 0 3 .notReady 0).txn] ∧
      Delivers s ids [read] := by
  have hstored : Broadcasts (Transfers .notReady) _ _ _ :=
    (Broadcasts.new config 1 rfl).perform (.insert (transfer 0 3 .notReady 0) 0)
      ⟨0, 3, 0, rfl⟩ rfl
  have hread := hstored.read 5 (by decide) rfl
  refine ⟨_, _, _, rfl, hread.delivers ?_⟩
  rintro _ id ⟨sequenceNumber, price, number, rfl⟩ hstate
  cases hstate

/-- The second transaction of the account stays for longer. -/
def TransactionStore.SmallPool.lasting : MempoolTransaction Unit :=
  { transfer 1 3 .notReady 0 with expirationTime := 20 }

theorem TransactionStore.SmallPool.gc_one {s : TransactionStore Unit} {now : ℕ}
    (key : TTLOrderingKey) (h : s.systemTtlIndex.filter (·.isExpired now) = [key]) :
    s.gc now true =
      { s with systemTtlIndex := s.systemTtlIndex.filter (!·.isExpired now) }.gcStep key none := by
  rw [TransactionStore.gc, if_pos rfl, h, TransactionStore.sortKeys, List.mergeSort_singleton]
  rfl

/-- Both transactions are broadcast, and then the first one is too old. -/
theorem TransactionStore.SmallPool.parks_lasting : ∃ (s : TransactionStore Unit) (ids : List ℕ)
    (read : TimelineRead Unit), Broadcasts (·.timelineState = .notReady) s ids [read] ∧
      read.batch = [(transfer 0 3 .notReady 0).txn, lasting.txn] ∧
      s.transactions = [lasting] ∧
      s.timelineRange (read.before.zip read.after) = some [] := by
  have hfirst : Broadcasts (·.timelineState = .notReady) _ _ _ :=
    (Broadcasts.new config 1 rfl).perform (.insert (transfer 0 3 .notReady 0) 0) rfl rfl
  have hsecond := hfirst.perform (.insert lasting 0) rfl rfl
  have hread := hsecond.read 5 (by decide) rfl
  have hgc := hread.perform (.gc 15 true) trivial
    (congrArg some (gc_one (transfer 0 3 .notReady 0).systemTtlKey rfl))
  exact ⟨_, _, _, hgc, rfl, rfl, rfl⟩

/-- The first transaction of the account does not fit into a batch. -/
def TransactionStore.SmallPool.oversize : MempoolTransaction Unit :=
  { transfer 0 3 .notReady 0 with
    txn := { (transfer 0 3 .notReady 0).txn with rawTxnBytesLen := 101 } }

theorem TransactionStore.SmallPool.keeps_oversize : ∃ s : TransactionStore Unit,
    Broadcasts (·.timelineState = .notReady) s [0] [] ∧
      s.timelineIndex.Holds 0 1 oversize.pointer ∧ s.readTimeline [0] 1 = some ([], [0]) := by
  have hstored : Broadcasts (·.timelineState = .notReady) _ _ _ :=
    (Broadcasts.new config 1 rfl).perform (.insert oversize 0) rfl rfl
  exact ⟨_, hstored, ⟨_, rfl, List.mem_cons_self⟩, rfl⟩

theorem TransactionStore.SmallPool.reads_nothing {s : TransactionStore Unit}
    (h : Broadcasts (·.timelineState = .notReady) s [0] [])
    (hread : s.readTimeline [0] 1 = some ([], [0])) (n : ℕ) :
    Broadcasts (·.timelineState = .notReady) s [0] (List.replicate n ⟨s, [0], 1, [], [0]⟩) := by
  induction n with
  | zero => exact h
  | succ n ih => exact ih.read 1 Nat.one_pos hread

/-- A transaction that is broadcast and still stored is not in the range of its batch, and one that
does not fit into a batch is in the timeline for ever. -/
theorem Broadcasts.delivers_fails :
    (∃ (s : TransactionStore Unit) (ids : List ℕ) (read : TimelineRead Unit),
      Broadcasts (·.timelineState = .notReady) s ids [read] ∧
      ∃ t ∈ s.transactions, t.txn ∈ read.batch ∧
        s.timelineRange (read.before.zip read.after) = some []) ∧
    ∃ s : TransactionStore Unit, ∃ id p, s.timelineIndex.Holds 0 id p ∧ ∀ n, ∃ reads,
      Broadcasts (·.timelineState = .notReady) s [0] reads ∧ reads.length = n ∧
        ∀ read ∈ reads, read.store = s ∧ read.batch = [] := by
  constructor
  · obtain ⟨s, ids, read, hrun, hbatch, htransactions, hrange⟩ := parks_lasting
    refine ⟨s, ids, read, hrun, lasting, ?_, ?_, hrange⟩
    · rw [htransactions]
      exact List.mem_cons_self
    · rw [hbatch]
      exact List.mem_cons_of_mem _ List.mem_cons_self
  · obtain ⟨s, hrun, hholds, hread⟩ := keeps_oversize
    refine ⟨s, 1, _, hholds, fun n => ⟨_, reads_nothing hrun hread n, List.length_replicate, ?_⟩⟩
    intro read hmem
    obtain rfl := List.eq_of_mem_replicate hmem
    exact ⟨rfl, rfl⟩

end Runs

end Anthemius.Mempool

import Anthemius.MultiBatchOrders

/-!
# What a peer is sent

Along every run the batches of a peer are ranges that follow each other, and each of them is
tracked until it is acknowledged or its transactions are gone.
-/
namespace Anthemius.Mempool

/-! ## The choice of a batch -/

section Choice
variable {P : Type} {config : BroadcastConfig} {attempt : BroadcastAttempt}

/-- The batch has not been answered in time, or is to be sent again. -/
def PeerSyncState.Waiting (state : PeerSyncState) (config : BroadcastConfig)
    (attempt : BroadcastAttempt) (id : MultiBatchId) : Prop :=
  (∃ entry ∈ state.sentBatches.filter (config.Expired attempt ·), entry.1 = id) ∨
    ∃ entry ∈ state.retryBatches, entry.1 = id

theorem BroadcastConfig.expiredBatchId_eq {entries : List (MultiBatchId × ℕ)} {pending : ℕ}
    {expired result : Option MultiBatchId}
    (h : config.expiredBatchId attempt entries pending expired = .ok result) :
    result = ((entries.filter (config.Expired attempt ·)).getLast?.map Prod.fst).or expired := by
  induction entries generalizing pending expired with
  | nil =>
    cases h
    rfl
  | cons entry rest ih =>
    rw [expiredBatchId] at h
    rw [List.filter_cons]
    by_cases hexpired : config.Expired attempt entry
    · rw [if_pos hexpired] at h
      rw [if_pos (decide_eq_true hexpired), List.getLast?_cons]
      split at h
      · cases h
      · rw [ih h]
        cases (rest.filter (config.Expired attempt ·)).getLast? <;> rfl
    · rw [if_neg hexpired] at h
      rw [if_neg (mt of_decide_eq_true hexpired)]
      split at h
      · cases h
      · exact ih h

theorem BroadcastConfig.checkTransactions_ok {batch batch' : BroadcastBatch P}
    (h : checkTransactions batch = .ok batch') : batch = batch' ∧ batch.transactions ≠ [] := by
  rw [checkTransactions] at h
  split at h
  · cases h
  next hsome =>
    cases h
    exact ⟨rfl, fun hnil => hsome (List.isEmpty_iff.mpr hnil)⟩

/-- A batch is sent for the first time if none waits, and else the greatest one is sent again. -/
theorem BroadcastConfig.selectBatch_ok {s : TransactionStore P} {state : PeerSyncState}
    {batch : BroadcastBatch P} {buckets : ℕ}
    (hsent : MultiBatchId.Ascending buckets state.sentBatches)
    (hretry : MultiBatchId.Ascending buckets state.retryBatches)
    (h : config.selectBatch attempt s state = some (.ok batch)) :
    (batch.metricLabel ≠ none ∧
        MultiBatchId.Greatest (state.Waiting config attempt) (some batch.batchId)) ∨
      (batch.metricLabel = none ∧ (∀ other, ¬ state.Waiting config attempt other) ∧
        batch.transactions ≠ [] ∧
        ∃ after, s.readTimeline state.timelineId config.sharedMempoolBatchSize =
            some (batch.transactions, after) ∧ batch.batchId = state.timelineId.zip after) := by
  have hexpired := hsent.sublist (List.filter_sublist (p := (config.Expired attempt ·)))
  have hgreatest := hexpired.greatest.maxOption hretry.greatest
    (by rintro _ ⟨entry, hentry, rfl⟩; exact hexpired.length entry hentry)
    (by rintro _ ⟨entry, hentry, rfl⟩; exact hretry.length entry hentry)
  rw [selectBatch] at h
  split at h
  · cases h
  next expired hloop =>
    have heq := expiredBatchId_eq hloop
    rw [Option.or_none] at heq
    rw [← heq] at hgreatest
    split at h
    next id hmax =>
      rw [hmax] at hgreatest
      obtain ⟨txns, -, hcheck⟩ := Option.map_eq_some_iff.mp h
      obtain ⟨rfl, -⟩ := checkTransactions_ok hcheck
      exact Or.inl ⟨Option.some_ne_none _, hgreatest⟩
    next hmax =>
      rw [hmax] at hgreatest
      obtain ⟨⟨txns, after⟩, hread, hcheck⟩ := Option.map_eq_some_iff.mp h
      obtain ⟨rfl, hsome⟩ := checkTransactions_ok hcheck
      exact Or.inr ⟨rfl, hgreatest, hsome, after, hread, rfl⟩

/-! ## One broadcast -/

theorem PeerSyncState.keepPresent_spec {V : Type} {s : TransactionStore P}
    {entries kept : List (MultiBatchId × V)} (h : keepPresent s entries = some kept) :
    kept.Sublist entries ∧
      ∀ entry ∈ entries, entry ∈ kept ∨ s.timelineRange entry.1 = some [] := by
  induction entries generalizing kept with
  | nil =>
    cases h
    exact ⟨.refl _, fun _ hentry => absurd hentry List.not_mem_nil⟩
  | cons first rest ih =>
    obtain ⟨txns, hrange, h⟩ := Option.bind_eq_some_iff.mp h
    obtain ⟨others, hothers, h⟩ := Option.bind_eq_some_iff.mp h
    obtain ⟨hsublist, hdropped⟩ := ih hothers
    cases h
    split
    next hempty =>
      refine ⟨hsublist.cons first, fun entry hentry => ?_⟩
      obtain rfl | hentry := List.mem_cons.mp hentry
      · exact Or.inr (List.isEmpty_iff.mp hempty ▸ hrange)
      · exact hdropped entry hentry
    next hsome =>
      refine ⟨hsublist.cons_cons first, fun entry hentry => ?_⟩
      obtain rfl | hentry := List.mem_cons.mp hentry
      · exact Or.inl List.mem_cons_self
      · exact (hdropped entry hentry).imp_left (List.mem_cons_of_mem _)

theorem BroadcastConfig.determineBroadcastBatch_cases {s : TransactionStore P}
    {state state' : PeerSyncState} {result : Except BroadcastError (BroadcastBatch P)}
    (h : config.determineBroadcastBatch attempt s state = some (state', result)) :
    (state' = state ∧ ∃ error, result = .error error) ∨
      (state.syncWith s = some state' ∧ config.selectBatch attempt s state' = some result) := by
  rw [determineBroadcastBatch] at h
  split at h
  next error herror =>
    cases h
    exact Or.inl ⟨rfl, error, rfl⟩
  · split at h
    · cases h
      exact Or.inl ⟨rfl, _, rfl⟩
    · obtain ⟨synced, hsync, h⟩ := Option.bind_eq_some_iff.mp h
      obtain ⟨batch, hbatch, h⟩ := Option.bind_eq_some_iff.mp h
      cases h
      exact Or.inr ⟨hsync, hbatch⟩

theorem BroadcastConfig.executeBroadcast_cases {s : TransactionStore P}
    {state state' : PeerSyncState} {result : Except BroadcastError (BroadcastBatch P)}
    (h : config.executeBroadcast attempt s state = some (state', result)) :
    (∃ error, result = .error error ∧ (state' = state ∨ state.syncWith s = some state')) ∨
      ∃ synced batch, state.syncWith s = some synced ∧
        config.selectBatch attempt s synced = some (.ok batch) ∧ result = .ok batch ∧
        state' = synced.updateBroadcastState batch.batchId attempt.sendTime := by
  obtain ⟨⟨found, choice⟩, hdetermine, h⟩ := Option.bind_eq_some_iff.mp h
  have hcases := determineBroadcastBatch_cases hdetermine
  cases choice with
  | error error =>
    cases h
    exact Or.inl ⟨error, rfl, hcases.imp And.left And.left⟩
  | ok batch =>
    obtain ⟨-, error, herror⟩ | ⟨hsync, hselect⟩ := hcases
    · cases herror
    dsimp only at h
    split at h
    · cases h
      exact Or.inr ⟨found, batch, hsync, hselect, rfl, rfl⟩
    · cases h
      exact Or.inl ⟨_, rfl, Or.inr hsync⟩

end Choice

/-! ## Timeline ids -/

theorem length_updateTimelineId {ids : List ℕ} {batch : MultiBatchId} :
    (updateTimelineId ids batch).length = ids.length := by
  rw [updateTimelineId]
  split
  · rfl
  next h => rw [List.length_zipWith, ← not_ne_iff.mp h, min_self]

theorem le_updateTimelineId (ids : List ℕ) (batch : MultiBatchId) (bucket : ℕ) :
    ids.getD bucket 0 ≤ (updateTimelineId ids batch).getD bucket 0 := by
  by_cases hlt : bucket < ids.length
  · have hlt' : bucket < (updateTimelineId ids batch).length := length_updateTimelineId.symm ▸ hlt
    rw [getD_eq_getElem hlt, getD_eq_getElem hlt']
    simp only [updateTimelineId]
    split
    · exact le_rfl
    · rw [List.getElem_zipWith]
      exact le_max_left ..
  · rw [List.getD_eq_getElem?_getD, List.getElem?_eq_none (Nat.not_lt.mp hlt)]
    exact Nat.zero_le _

theorem updateTimelineId_zip {ids before after : List ℕ} (hbefore : before.length = ids.length)
    (hafter : after.length = ids.length) :
    updateTimelineId ids (before.zip after) = List.zipWith max ids after := by
  have hlength : (before.zip after).length = ids.length := by
    rw [List.length_zip, hbefore, hafter, min_self]
  rw [updateTimelineId, if_neg (not_ne_iff.mpr hlength.symm)]
  refine List.ext_getElem ?_ fun bucket h h' => ?_
  · rw [List.length_zipWith, List.length_zipWith, hlength, hafter]
  · rw [List.getElem_zipWith, List.getElem_zipWith, List.getElem_zip]

theorem zipWith_max_eq_left {ids after : List ℕ} (hlength : after.length = ids.length)
    (h : ∀ bucket, after.getD bucket 0 ≤ ids.getD bucket 0) : List.zipWith max ids after = ids := by
  refine List.ext_getElem ?_ fun bucket hzip hids => ?_
  · rw [List.length_zipWith, hlength, min_self]
  · have hle := h bucket
    rw [getD_eq_getElem hids, getD_eq_getElem (hlength.symm ▸ hids)] at hle
    rw [List.getElem_zipWith, max_eq_left hle]

theorem zipWith_max_eq_right {ids after : List ℕ} (hlength : after.length = ids.length)
    (h : ∀ bucket, ids.getD bucket 0 ≤ after.getD bucket 0) :
    List.zipWith max ids after = after := by
  rw [List.zipWith_comm_of_comm (fun a b => max_comm a b)]
  exact zipWith_max_eq_left hlength.symm h

/-! ## Reads without a count -/

theorem TimelineIndex.readLoop_zero {entries : List (ℕ × TxnPointer)} {batch : List TxnPointer} :
    readLoop 0 entries batch = batch ++ entries.map Prod.snd := by
  induction entries generalizing batch with
  | nil => exact (List.append_nil batch).symm
  | cons entry rest ih =>
    have hne : (batch ++ [entry.2]).length ≠ 0 := by
      rw [List.length_append]
      exact Nat.succ_ne_zero _
    rw [readLoop, if_neg hne, ih, List.append_assoc, List.singleton_append, List.map_cons]

theorem TimelineIndex.readTimeline_zero {index : TimelineIndex} {timelineId : ℕ} :
    index.readTimeline timelineId 0 = (index.pending timelineId).map Prod.snd :=
  TimelineIndex.readLoop_zero

theorem MultiBucketTimelineIndex.readLoop_zero {buckets : List (TimelineIndex × ℕ)}
    {lists : List (List TxnPointer)} (h : readLoop 0 buckets 0 = some lists) :
    (∀ l ∈ lists, l = []) ∨ ∃ count > 0, readLoop count buckets 0 = some lists := by
  cases buckets with
  | nil =>
    cases h
    exact Or.inl fun _ hl => absurd hl List.not_mem_nil
  | cons bucket rest =>
    rw [readLoop, if_neg (Nat.lt_irrefl 0)] at h
    simp only [Nat.sub_self, Nat.zero_add, TimelineIndex.readTimeline_zero, List.length_map] at h
    split at h
    next hnone =>
      cases h
      refine Or.inl fun l hl => ?_
      obtain rfl | hl := List.mem_cons.mp hl
      · rw [List.length_eq_zero_iff.mp hnone, List.map_nil]
      · obtain ⟨_, -, rfl⟩ := List.mem_map.mp hl
        rfl
    next hsome =>
      obtain ⟨others, hothers, rfl⟩ := Option.map_eq_some_iff.mp h
      have hpos := Nat.pos_of_ne_zero hsome
      cases rest with
      | nil =>
        cases hothers
        refine Or.inr ⟨(bucket.1.pending bucket.2).length, hpos, ?_⟩
        rw [readLoop_eq hpos, Nat.sub_zero]
        simp only [List.map_cons, List.map_nil, takeAcross, List.take_length]
      | cons next rest =>
        rw [readLoop, if_pos hpos] at hothers
        cases hothers

theorem TransactionStore.readBuckets_empty {P : Type} {s : TransactionStore P}
    {buckets : List (List TxnPointer × ℕ)} (h : ∀ bucket ∈ buckets, bucket.1 = [])
    (txns : List (SignedTransaction P)) (totalBytes : ℕ) :
    (s.readBuckets buckets txns totalBytes).1 = txns := by
  induction buckets with
  | nil => rfl
  | cons bucket rest ih =>
    obtain ⟨pointers, timelineId⟩ := bucket
    obtain rfl : pointers = [] := h _ List.mem_cons_self
    exact ih fun bucket hbucket => h bucket (List.mem_cons_of_mem _ hbucket)

theorem TransactionStore.exists_count {P : Type} {s : TransactionStore P} {ids after : List ℕ}
    {count : ℕ} {batch : List (SignedTransaction P)}
    (h : s.readTimeline ids count = some (batch, after)) (hbatch : batch ≠ []) :
    ∃ count > 0, s.readTimeline ids count = some (batch, after) := by
  cases count with
  | succ count => exact ⟨count + 1, Nat.succ_pos count, h⟩
  | zero =>
    obtain ⟨buckets, hbuckets, hread⟩ := Option.bind_eq_some_iff.mp h
    rw [MultiBucketTimelineIndex.readTimeline] at hbuckets
    split at hbuckets
    next hlength =>
      obtain ⟨lists, hlists, rfl⟩ := Option.map_eq_some_iff.mp hbuckets
      obtain hempty | ⟨count, hcount, heq⟩ := MultiBucketTimelineIndex.readLoop_zero hlists
      · -- nothing is read
        have hnil : (s.readBuckets (lists.reverse.zip ids).reverse [] 0).1 = [] := by
          refine readBuckets_empty (fun bucket hbucket => ?_) _ _
          have hin := (List.of_mem_zip (List.mem_reverse.mp hbucket)).1
          exact hempty bucket.1 (List.mem_reverse.mp hin)
        cases hread
        exact absurd hnil hbatch
      · refine ⟨count, hcount, Option.bind_eq_some_iff.mpr ⟨lists.reverse, ?_, hread⟩⟩
        rw [MultiBucketTimelineIndex.readTimeline, if_pos hlength, heq, Option.map_some]
    · cases hbuckets

/-! ## What is tracked -/

section Tracks
variable {P : Type} {world : MempoolTransaction P → Prop}

def TimelineRead.batchId (read : TimelineRead P) : MultiBatchId :=
  MultiBatchId.fromTimelineIds read.before read.after

def PeerSyncState.Tracked (state : PeerSyncState) (id : MultiBatchId) : Prop :=
  (∃ entry ∈ state.sentBatches, entry.1 = id) ∨ ∃ entry ∈ state.retryBatches, entry.1 = id

/-- What holds along a run, with the reads of the batches. A batch that is no longer tracked was
acknowledged or has nothing in the timeline. -/
structure BroadcastRun.Tracks (run : BroadcastRun P) (world : MempoolTransaction P → Prop)
    (reads : List (TimelineRead P)) : Prop where
  broadcasting : Broadcasting world run.mempool run.peer.timelineId reads
  sent : run.sent = (reads.map TimelineRead.batchId).reverse
  advances : ∀ read ∈ reads, ∃ bucket < read.before.length,
    read.before.getD bucket 0 < read.after.getD bucket 0
  sentBatches : MultiBatchId.Ascending run.peer.timelineId.length run.peer.sentBatches
  retryBatches : MultiBatchId.Ascending run.peer.timelineId.length run.peer.retryBatches
  known : ∀ id, run.peer.Tracked id → ∃ read ∈ reads, read.batchId = id
  settled : ∀ read ∈ reads, read.batchId ∈ run.acked ∨ run.peer.Tracked read.batchId ∨
    ∀ bucket, run.mempool.inRange read.before read.after bucket = []

section Batches
variable {s : TransactionStore P} {ids : List ℕ} {reads : List (TimelineRead P)}
  {read : TimelineRead P}

theorem Broadcasting.length_before (h : Broadcasting world s ids reads) (hread : read ∈ reads) :
    read.before.length = ids.length := by
  have hpast := h.past read hread
  rw [hpast.length, ← hpast.follows.timeline.length, h.length]

theorem Broadcasting.length_after (h : Broadcasting world s ids reads) (hread : read ∈ reads) :
    read.after.length = ids.length := by
  rw [(h.past read hread).readsTo.length_eq, h.length_before hread]

theorem Broadcasting.length_batchId (h : Broadcasting world s ids reads) (hread : read ∈ reads) :
    read.batchId.length = ids.length := by
  rw [TimelineRead.batchId, MultiBatchId.fromTimelineIds, List.length_zip, h.length_before hread,
    h.length_after hread, min_self]

theorem Broadcasting.cmp_batchId {later : TimelineRead P} (h : Broadcasting world s ids reads)
    (hread : read ∈ reads) (hlater : later ∈ reads)
    (hchain : ∀ bucket, read.after.getD bucket 0 ≤ later.before.getD bucket 0)
    (hadvances : ∃ bucket < read.before.length,
      read.before.getD bucket 0 < read.after.getD bucket 0) :
    MultiBatchId.cmp read.batchId later.batchId = .lt := by
  have hbefore := h.length_before hread
  have hafter := h.length_after hread
  have hlater' := h.length_before hlater
  have hafter' := h.length_after hlater
  refine MultiBatchId.cmpPairs_lt (List.forall₂_reverse_iff.mpr ?_) ?_
  · refine List.forall₂_iff_get.mpr
      ⟨(h.length_batchId hread).trans (h.length_batchId hlater).symm, fun bucket hlt hlt' => ?_⟩
    have hbucket : bucket < ids.length := h.length_batchId hread ▸ hlt
    have hle := (h.past read hread).readsTo.ids_le bucket
    have hle' := (h.past later hlater).readsTo.ids_le bucket
    have hbetween := hchain bucket
    rw [getD_eq_getElem (hbefore.symm ▸ hbucket), getD_eq_getElem (hafter.symm ▸ hbucket)] at hle
    rw [getD_eq_getElem (hlater'.symm ▸ hbucket), getD_eq_getElem (hafter'.symm ▸ hbucket)] at hle'
    rw [getD_eq_getElem (hafter.symm ▸ hbucket),
      getD_eq_getElem (hlater'.symm ▸ hbucket)] at hbetween
    simp only [TimelineRead.batchId, MultiBatchId.fromTimelineIds, List.get_eq_getElem,
      List.getElem_zip]
    exact ⟨hle, hbetween, hle'⟩
  · obtain ⟨bucket, hbucket, hlt⟩ := hadvances
    have hbucket' : bucket < read.after.length := by omega
    rw [getD_eq_getElem hbucket, getD_eq_getElem hbucket'] at hlt
    refine ⟨(read.before[bucket], read.after[bucket]), List.mem_reverse.mpr ?_, hlt⟩
    have hzip : bucket < read.batchId.length := by
      rw [h.length_batchId hread, ← hbefore]
      exact hbucket
    have hmem : read.batchId[bucket] ∈ read.batchId := List.getElem_mem hzip
    simp only [TimelineRead.batchId, MultiBatchId.fromTimelineIds, List.getElem_zip] at hmem
    exact hmem

end Batches

variable {run : BroadcastRun P} {reads : List (TimelineRead P)}

theorem BroadcastRun.Tracks.mem_sent (h : run.Tracks world reads) {id : MultiBatchId} :
    id ∈ run.sent ↔ ∃ read ∈ reads, read.batchId = id := by
  rw [h.sent, List.mem_reverse, List.mem_map]

theorem BroadcastRun.Tracks.ordered (h : run.Tracks world reads) :
    run.sent.Pairwise fun a b => MultiBatchId.cmp a b = .lt := by
  rw [h.sent, List.pairwise_reverse, List.pairwise_map]
  refine h.broadcasting.chain.imp_of_mem fun {later read} hlater hread hchain => ?_
  exact h.broadcasting.cmp_batchId hread hlater hchain (h.advances read hread)

theorem BroadcastRun.Tracks.idxOf_lt (h : run.Tracks world reads) {a b : MultiBatchId}
    (ha : a ∈ run.sent) (hb : b ∈ run.sent) (hlt : MultiBatchId.cmp a b = .lt) :
    run.sent.idxOf a < run.sent.idxOf b := by
  have hlength : ∀ {id}, id ∈ run.sent → id.length = run.peer.timelineId.length := by
    intro id hid
    obtain ⟨read, hread, rfl⟩ := h.mem_sent.mp hid
    exact h.broadcasting.length_batchId hread
  by_contra hle
  obtain hback | heq := Nat.lt_or_eq_of_le (Nat.not_lt.mp hle)
  · have hgt := List.pairwise_iff_getElem.mp h.ordered _ _ (List.idxOf_lt_length_iff.mpr hb)
      (List.idxOf_lt_length_iff.mpr ha) hback
    rw [List.getElem_idxOf, List.getElem_idxOf,
      ← MultiBatchId.cmp_eq_gt ((hlength ha).trans (hlength hb).symm), hlt] at hgt
    cases hgt
  · obtain rfl := (List.idxOf_inj hb).mp heq
    rw [(MultiBatchId.cmp_eq_eq rfl).mpr rfl] at hlt
    cases hlt

/-! ## Steps -/

theorem BroadcastRun.Tracks.perform [DecidableEq P] (h : run.Tracks world reads)
    (hunready : Unready world) {call : StoreCall P} (hcall : call.Inserts world)
    {mempool : TransactionStore P} (hs : run.mempool.perform call = some mempool) :
    { run with mempool := mempool }.Tracks world reads := by
  obtain ⟨hconsistent, hperforms⟩ := h.broadcasting.consistent.performs hcall hs
  have hfollows := hperforms.follows h.broadcasting.consistent hconsistent hunready
  refine { h with
    broadcasting := h.broadcasting.perform hunready hcall hs
    settled := fun read hread => (h.settled read hread).imp_right (Or.imp_right ?_) }
  intro hgone bucket
  rw [List.eq_nil_iff_forall_not_mem]
  intro entry hentry
  obtain ⟨hmem, hrange⟩ := List.mem_filter.mp hentry
  -- an id that was passed is not given to a new entry
  have hold : entry ∈ run.mempool.inRange read.before read.after bucket := by
    refine List.mem_filter.mpr ⟨MultiBucketTimelineIndex.mem_entries.mpr ?_, hrange⟩
    refine hfollows.timeline.holds_of_lt (MultiBucketTimelineIndex.mem_entries.mp hmem)
      fun timeline htimeline => ?_
    calc
      entry.1 ≤ read.after.getD bucket 0 := (of_decide_eq_true hrange).2
      _ ≤ run.peer.timelineId.getD bucket 0 := (h.broadcasting.past read hread).after_le bucket
      _ < timeline.timelineId := h.broadcasting.below bucket timeline htimeline
  rw [hgone bucket] at hold
  cases hold

theorem Broadcasting.inRange_eq_nil {s : TransactionStore P} {ids : List ℕ}
    {read : TimelineRead P} (h : Broadcasting world s ids reads) (hunready : Unready world)
    (hread : read ∈ reads) (hrange : s.timelineRange read.batchId = some []) (bucket : ℕ) :
    s.inRange read.before read.after bucket = [] := by
  have hbefore := (h.length_before hread).trans h.length
  rw [TimelineRead.batchId, MultiBatchId.fromTimelineIds, TransactionStore.timelineRange_eq hbefore
    (h.past read hread).readsTo.length_eq (h.past read hread).readsTo.ids_le] at hrange
  rw [List.eq_nil_iff_forall_not_mem]
  intro entry hentry
  have hholds := MultiBucketTimelineIndex.mem_entries.mp (List.mem_filter.mp hentry).1
  obtain ⟨t, ht, hpointer⟩ := h.consistent.exists_of_holds hunready hholds
  have hbucket : bucket < read.before.length := by
    obtain ⟨timeline, htimeline, -⟩ := hholds
    rw [hbefore]
    exact (List.getElem?_eq_some_iff.mp htimeline).1
  have htxn : s.txnOf entry = some t.txn := by
    rw [TransactionStore.txnOf, h.consistent.getMempoolTxn_eq_some.mpr ⟨ht, hpointer⟩,
      Option.map_some]
  have hin : t.txn ∈ ((List.range read.before.length).flatMap
      (s.inRange read.before read.after)).filterMap s.txnOf :=
    List.mem_filterMap.mpr
      ⟨entry, List.mem_flatMap.mpr ⟨bucket, List.mem_range.mpr hbucket, hentry⟩, htxn⟩
  rw [Option.some.inj hrange] at hin
  cases hin

theorem BroadcastRun.Tracks.sync (h : run.Tracks world reads) (hunready : Unready world)
    {synced : PeerSyncState} (hsync : run.peer.syncWith run.mempool = some synced) :
    { run with peer := synced }.Tracks world reads := by
  obtain ⟨sentBatches, hsent, hsync⟩ := Option.bind_eq_some_iff.mp hsync
  obtain ⟨retryBatches, hretry, hsync⟩ := Option.bind_eq_some_iff.mp hsync
  cases hsync
  obtain ⟨hsent, hsentGone⟩ := PeerSyncState.keepPresent_spec hsent
  obtain ⟨hretry, hretryGone⟩ := PeerSyncState.keepPresent_spec hretry
  refine { h with
    sentBatches := h.sentBatches.sublist hsent
    retryBatches := h.retryBatches.sublist hretry
    known := fun id hid => h.known id ?_
    settled := fun read hread => (h.settled read hread).imp_right ?_ }
  · obtain ⟨entry, hentry, heq⟩ | ⟨entry, hentry, heq⟩ := hid
    · exact Or.inl ⟨entry, hsent.subset hentry, heq⟩
    · exact Or.inr ⟨entry, hretry.subset hentry, heq⟩
  · have hgone := h.broadcasting.inRange_eq_nil hunready hread
    rintro ((⟨entry, hentry, heq⟩ | ⟨entry, hentry, heq⟩) | hnone)
    · obtain hentry | hrange := hsentGone entry hentry
      · exact Or.inl (Or.inl ⟨entry, hentry, heq⟩)
      · exact Or.inr (hgone (heq ▸ hrange))
    · obtain hentry | hrange := hretryGone entry hentry
      · exact Or.inl (Or.inr ⟨entry, hentry, heq⟩)
      · exact Or.inr (hgone (heq ▸ hrange))
    · exact Or.inr hnone

theorem BroadcastRun.Tracks.acknowledge [DecidableEq P] {config : BroadcastConfig}
    (h : run.Tracks world reads) {batchId : MultiBatchId} {retry backoff : Bool} {timestamp : ℕ}
    {run' : BroadcastRun P} (hid : batchId.length = run.peer.timelineId.length)
    (hstep : run.step config (.acknowledge batchId retry backoff timestamp) = some run') :
    run'.Tracks world reads := by
  obtain ⟨peer, hpeer, rfl⟩ := Option.map_eq_some_iff.mp hstep
  rw [PeerSyncState.processBroadcastAck] at hpeer
  cases hremove : MultiBatchId.removeEntry batchId run.peer.sentBatches with
  | none =>
    rw [hremove] at hpeer
    cases hpeer
    rw [Option.isSome_none, Bool.and_false, if_neg Bool.false_ne_true]
    exact h
  | some found =>
    obtain ⟨sentTimestamp, sentBatches⟩ := found
    obtain ⟨hmem, hsublist, hrest⟩ := h.sentBatches.removeEntry hid hremove
    rw [hremove] at hpeer
    dsimp only at hpeer
    split at hpeer
    · cases hpeer
    cases hpeer
    have hkept : ∀ id, (∃ entry ∈ sentBatches, entry.1 = id) →
        ∃ entry ∈ run.peer.sentBatches, entry.1 = id := by
      rintro id ⟨entry, hentry, heq⟩
      exact ⟨entry, hsublist.subset hentry, heq⟩
    cases retry with
    | true =>
      -- the batch moves to those that are sent again
      have hinsert : ∀ id, (∃ entry ∈ MultiBatchId.insertEntry batchId () run.peer.retryBatches,
          entry.1 = id) ↔ id = batchId ∨ ∃ entry ∈ run.peer.retryBatches, entry.1 = id :=
        fun id => h.retryBatches.exists_insertEntry hid
      refine { h with
        sentBatches := h.sentBatches.sublist hsublist
        retryBatches := h.retryBatches.insertEntry hid
        known := fun id htracked => h.known id ?_
        settled := fun read hread => (h.settled read hread).imp_right (Or.imp_left ?_) }
      · obtain hsent | hretry := htracked
        · exact Or.inl (hkept id hsent)
        · obtain rfl | hretry := (hinsert id).mp hretry
          · exact Or.inl ⟨_, hmem, rfl⟩
          · exact Or.inr hretry
      · rintro (hsent | hretry)
        · obtain hsame | hsent := hrest _ hsent
          · exact Or.inr ((hinsert _).mpr (Or.inl hsame))
          · exact Or.inl hsent
        · exact Or.inr ((hinsert _).mpr (Or.inr hretry))
    | false =>
      refine { h with
        sentBatches := h.sentBatches.sublist hsublist
        known := fun id htracked => h.known id (htracked.imp_left (hkept id))
        settled := fun read hread => ?_ }
      obtain hacked | (hsent | hretry) | hnone := h.settled read hread
      · exact Or.inl (List.mem_append_left _ hacked)
      · obtain hsame | hsent := hrest _ hsent
        · exact Or.inl (List.mem_append_right _ (List.mem_singleton.mpr hsame))
        · exact Or.inr (Or.inl (Or.inl hsent))
      · exact Or.inr (Or.inl (Or.inr hretry))
      · exact Or.inr (Or.inr hnone)

theorem PeerSyncState.tracked_update {state : PeerSyncState} {buckets : ℕ} {id : MultiBatchId}
    (hsent : MultiBatchId.Ascending buckets state.sentBatches)
    (hretry : MultiBatchId.Ascending buckets state.retryBatches) (hid : id.length = buckets)
    (sendTime : ℕ) :
    MultiBatchId.Ascending buckets (state.updateBroadcastState id sendTime).sentBatches ∧
      MultiBatchId.Ascending buckets (state.updateBroadcastState id sendTime).retryBatches ∧
      ∀ other, (state.updateBroadcastState id sendTime).Tracked other ↔
        other = id ∨ state.Tracked other := by
  have hinsert : ∀ other, (∃ entry ∈ MultiBatchId.insertEntry id sendTime state.sentBatches,
      entry.1 = other) ↔ other = id ∨ ∃ entry ∈ state.sentBatches, entry.1 = other :=
    fun other => hsent.exists_insertEntry hid
  simp only [PeerSyncState.updateBroadcastState, PeerSyncState.Tracked, hinsert]
  cases hremove : MultiBatchId.removeEntry id state.retryBatches with
  | none => exact ⟨hsent.insertEntry hid, hretry, fun other => or_assoc⟩
  | some found =>
    obtain ⟨-, hsublist, hrest⟩ := hretry.removeEntry hid hremove
    refine ⟨hsent.insertEntry hid, hretry.sublist hsublist, fun other => ?_⟩
    rw [or_assoc]
    constructor
    · refine Or.imp_right (Or.imp_right ?_)
      rintro ⟨entry, hentry, heq⟩
      exact ⟨entry, hsublist.subset hentry, heq⟩
    · rintro (hsame | hother | hother)
      · exact Or.inl hsame
      · exact Or.inr (Or.inl hother)
      · exact (hrest other hother).imp_right Or.inr

theorem BroadcastRun.Tracks.resend (h : run.Tracks world reads) {id : MultiBatchId}
    (hid : run.peer.Tracked id) (sendTime : ℕ) :
    { run with peer := run.peer.updateBroadcastState id sendTime }.Tracks world reads := by
  obtain ⟨read, hread, rfl⟩ := h.known id hid
  have hafter := h.broadcasting.length_after hread
  -- its range has been passed before
  have hids : (run.peer.updateBroadcastState read.batchId sendTime).timelineId =
      run.peer.timelineId :=
    (updateTimelineId_zip (h.broadcasting.length_before hread) hafter).trans
      (zipWith_max_eq_left hafter (h.broadcasting.past read hread).after_le)
  obtain ⟨hsent, hretry, htracked⟩ := PeerSyncState.tracked_update h.sentBatches h.retryBatches
    (h.broadcasting.length_batchId hread) sendTime
  constructor
  case broadcasting =>
    dsimp only
    rw [hids]
    exact h.broadcasting
  case sent => exact h.sent
  case advances => exact h.advances
  case sentBatches =>
    dsimp only
    rw [hids]
    exact hsent
  case retryBatches =>
    dsimp only
    rw [hids]
    exact hretry
  case known =>
    intro id hid
    obtain rfl | hid := (htracked id).mp hid
    · exact ⟨read, hread, rfl⟩
    · exact h.known id hid
  case settled =>
    intro other hother
    exact (h.settled other hother).imp_right
      (Or.imp_left fun hold => (htracked _).mpr (Or.inr hold))

theorem BroadcastRun.Tracks.send (h : run.Tracks world reads) {count : ℕ}
    {batch : List (SignedTransaction P)} {after : List ℕ}
    (hreads : run.mempool.ReadsTo run.peer.timelineId count batch after) (hbatch : batch ≠ [])
    (sendTime : ℕ) :
    { run with
      peer := run.peer.updateBroadcastState (run.peer.timelineId.zip after) sendTime
      sent := run.sent ++ [run.peer.timelineId.zip after] }.Tracks world
      (⟨run.mempool, run.peer.timelineId, count, batch, after⟩ :: reads) := by
  have hafter := hreads.length_eq
  have hids : (run.peer.updateBroadcastState (run.peer.timelineId.zip after)
      sendTime).timelineId = after :=
    (updateTimelineId_zip rfl hafter).trans (zipWith_max_eq_right hafter hreads.ids_le)
  have hlength : (run.peer.timelineId.zip after).length = run.peer.timelineId.length := by
    rw [List.length_zip, hafter, min_self]
  obtain ⟨hsent, hretry, htracked⟩ :=
    PeerSyncState.tracked_update h.sentBatches h.retryBatches hlength sendTime
  constructor
  case broadcasting =>
    dsimp only
    rw [hids]
    exact h.broadcasting.read hreads
  case sent =>
    dsimp only
    rw [List.map_cons, List.reverse_cons, h.sent]
    rfl
  case advances =>
    intro read hread
    obtain rfl | hread := List.mem_cons.mp hread
    · obtain ⟨txn, htxn⟩ := List.exists_mem_of_ne_nil batch hbatch
      rw [hreads.batch_eq] at htxn
      obtain ⟨entry, hentry, -⟩ := List.mem_filterMap.mp htxn
      obtain ⟨bucket, hbucket, hentry⟩ := List.mem_flatMap.mp hentry
      have hrange := of_decide_eq_true (List.mem_filter.mp hentry).2
      exact ⟨bucket, List.mem_range.mp (List.mem_reverse.mp hbucket),
        lt_of_lt_of_le hrange.1 hrange.2⟩
    · exact h.advances read hread
  case sentBatches =>
    dsimp only
    rw [hids, hafter]
    exact hsent
  case retryBatches =>
    dsimp only
    rw [hids, hafter]
    exact hretry
  case known =>
    intro id hid
    obtain rfl | hid := (htracked id).mp hid
    · exact ⟨_, List.mem_cons_self, rfl⟩
    · obtain ⟨read, hread, heq⟩ := h.known id hid
      exact ⟨read, List.mem_cons_of_mem _ hread, heq⟩
  case settled =>
    intro read hread
    obtain rfl | hread := List.mem_cons.mp hread
    · exact Or.inr (Or.inl ((htracked _).mpr (Or.inl rfl)))
    · exact (h.settled read hread).imp_right
        (Or.imp_left fun hold => (htracked _).mpr (Or.inr hold))

theorem PeerSyncState.Waiting.tracked {state : PeerSyncState} {config : BroadcastConfig}
    {attempt : BroadcastAttempt} {id : MultiBatchId} (h : state.Waiting config attempt id) :
    state.Tracked id := by
  refine h.imp_left ?_
  rintro ⟨entry, hentry, heq⟩
  exact ⟨entry, List.mem_of_mem_filter hentry, heq⟩

theorem BroadcastRun.Tracks.broadcast [DecidableEq P] {config : BroadcastConfig}
    (h : run.Tracks world reads) (hunready : Unready world) {attempt : BroadcastAttempt}
    {run' : BroadcastRun P} (hstep : run.step config (.broadcast attempt) = some run') :
    ∃ reads', run'.Tracks world reads' := by
  obtain ⟨⟨state, result⟩, hexecute, rfl⟩ := Option.map_eq_some_iff.mp hstep
  obtain ⟨error, rfl, hstate⟩ | ⟨synced, batch, hsync, hselect, rfl, rfl⟩ :=
    BroadcastConfig.executeBroadcast_cases hexecute
  · refine ⟨reads, ?_⟩
    dsimp only [firstSent]
    rw [List.append_nil]
    obtain rfl | hsync := hstate
    · exact h
    · exact h.sync hunready hsync
  · have hsynced := h.sync hunready hsync
    obtain ⟨hlabel, hgreatest⟩ | ⟨hlabel, -, hsome, after, hread, heq⟩ :=
      BroadcastConfig.selectBatch_ok hsynced.sentBatches hsynced.retryBatches hselect
    · have hnone : firstSent (.ok batch) = [] := by
        obtain ⟨id, txns, label⟩ := batch
        cases label with
        | none => exact absurd rfl hlabel
        | some label => rfl
      refine ⟨reads, ?_⟩
      dsimp only
      rw [hnone, List.append_nil]
      exact hsynced.resend hgreatest.1.tracked attempt.sendTime
    · have hfirst : firstSent (.ok batch) = [synced.timelineId.zip after] := by
        obtain ⟨id, txns, label⟩ := batch
        cases hlabel
        exact congrArg (fun id => [id]) heq
      obtain ⟨count, hcount, hread⟩ := TransactionStore.exists_count hread hsome
      obtain ⟨_, _, hread', hreads⟩ :=
        hsynced.broadcasting.consistent.reads hunready hsynced.broadcasting.length hcount
      rw [hread] at hread'
      cases hread'
      dsimp only
      rw [hfirst, heq]
      exact ⟨_, hsynced.send hreads hsome attempt.sendTime⟩

/-! ## Runs -/

/-- A transaction comes in without a place in the timeline. -/
def BroadcastEvent.InsertsUnready : BroadcastEvent P → Prop
  | .perform call => call.Inserts fun t => ∀ id, t.timelineState ≠ .ready id
  | .broadcast _ | .acknowledge _ _ _ _ => True

/-- An acknowledgement names a batch with a range for each bucket. -/
def BroadcastEvent.NamesBuckets (buckets : ℕ) : BroadcastEvent P → Prop
  | .acknowledge batchId _ _ _ => batchId.length = buckets
  | .perform _ | .broadcast _ => True

/-- What is still in the timeline and was passed is in the range of a batch that was acknowledged
or is tracked. -/
def BroadcastRun.Covers (run : BroadcastRun P) : Prop :=
  ∀ bucket id p, run.mempool.timelineIndex.Holds bucket id p →
    id ≤ run.peer.timelineId.getD bucket 0 →
    ∃ batch ∈ run.sent, (batch ∈ run.acked ∨ run.peer.Tracked batch) ∧
      ∃ range, batch[bucket]? = some range ∧ range.1 < id ∧ id ≤ range.2

theorem BroadcastRun.Tracks.covers (h : run.Tracks world reads) : run.Covers := by
  intro bucket id p hholds hle
  obtain ⟨read, hread, hentry⟩ := h.broadcasting.complete bucket id p hholds hle
  have hrange := of_decide_eq_true (List.mem_filter.mp hentry).2
  have hbucket : bucket < run.peer.timelineId.length := by
    obtain ⟨timeline, htimeline, -⟩ := hholds
    rw [h.broadcasting.length]
    exact (List.getElem?_eq_some_iff.mp htimeline).1
  refine ⟨read.batchId, h.mem_sent.mpr ⟨read, hread, rfl⟩, ?_,
    (read.before.getD bucket 0, read.after.getD bucket 0), ?_, hrange⟩
  · obtain hacked | htracked | hgone := h.settled read hread
    · exact Or.inl hacked
    · exact Or.inr htracked
    · have hin : (id, p) ∈ run.mempool.inRange read.before read.after bucket :=
        List.mem_filter.mpr
          ⟨MultiBucketTimelineIndex.mem_entries.mpr hholds, decide_eq_true hrange⟩
      rw [hgone bucket] at hin
      cases hin
  · have hbefore : bucket < read.before.length := h.broadcasting.length_before hread ▸ hbucket
    have hafter : bucket < read.after.length := h.broadcasting.length_after hread ▸ hbucket
    rw [TimelineRead.batchId, MultiBatchId.fromTimelineIds, List.getElem?_zip_eq_some,
      getD_eq_getElem hbefore, getD_eq_getElem hafter]
    exact ⟨List.getElem?_eq_getElem hbefore, List.getElem?_eq_getElem hafter⟩

theorem BroadcastRun.Tracks.start {config : BroadcastConfig} {overheadBytes : ℕ}
    {mempool : TransactionStore P}
    (h : TransactionStore.new config.toMempoolConfig overheadBytes = some mempool) :
    (start config mempool).Tracks world [] := by
  have hids : (PeerSyncState.new config.broadcastBuckets.length).timelineId =
      config.broadcastBuckets.map fun _ => 0 := (List.map_const' ..).symm
  constructor
  case broadcasting =>
    rw [BroadcastRun.start, hids]
    exact .new h
  case sent => rfl
  case advances => exact fun _ hread => absurd hread List.not_mem_nil
  case sentBatches => exact .nil
  case retryBatches => exact .nil
  case known => rintro id (⟨_, hentry, -⟩ | ⟨_, hentry, -⟩) <;> cases hentry
  case settled => exact fun _ hread => absurd hread List.not_mem_nil

theorem BroadcastRun.step_timelineId [DecidableEq P] {config : BroadcastConfig}
    {event : BroadcastEvent P} {run' : BroadcastRun P} (h : run.step config event = some run') :
    run'.peer.timelineId.length = run.peer.timelineId.length ∧
      ∀ bucket, run.peer.timelineId.getD bucket 0 ≤ run'.peer.timelineId.getD bucket 0 := by
  cases event with
  | perform call =>
    obtain ⟨mempool, -, rfl⟩ := Option.map_eq_some_iff.mp h
    exact ⟨rfl, fun _ => le_rfl⟩
  | broadcast attempt =>
    have hsynced : ∀ {synced : PeerSyncState}, run.peer.syncWith run.mempool = some synced →
        synced.timelineId = run.peer.timelineId := by
      intro synced hsync
      obtain ⟨_, -, hsync⟩ := Option.bind_eq_some_iff.mp hsync
      obtain ⟨_, -, hsync⟩ := Option.bind_eq_some_iff.mp hsync
      cases hsync
      rfl
    obtain ⟨⟨state, result⟩, hexecute, rfl⟩ := Option.map_eq_some_iff.mp h
    obtain ⟨error, -, rfl | hsync⟩ | ⟨synced, batch, hsync, -, -, rfl⟩ :=
      BroadcastConfig.executeBroadcast_cases hexecute
    · exact ⟨rfl, fun _ => le_rfl⟩
    · dsimp only
      rw [hsynced hsync]
      exact ⟨rfl, fun _ => le_rfl⟩
    · rw [← hsynced hsync]
      exact ⟨length_updateTimelineId, le_updateTimelineId _ _⟩
  | acknowledge batchId retry backoff timestamp =>
    obtain ⟨peer, hpeer, rfl⟩ := Option.map_eq_some_iff.mp h
    have heq : peer.timelineId = run.peer.timelineId := by
      rw [PeerSyncState.processBroadcastAck] at hpeer
      split at hpeer
      · cases hpeer
        rfl
      · split at hpeer
        · cases hpeer
        · cases hpeer
          rfl
    dsimp only
    rw [heq]
    exact ⟨rfl, fun _ => le_rfl⟩

theorem BroadcastRun.tracks_of_run [DecidableEq P] {config : BroadcastConfig} {overheadBytes : ℕ}
    {mempool : TransactionStore P} {events : List (BroadcastEvent P)}
    (hnew : TransactionStore.new config.toMempoolConfig overheadBytes = some mempool)
    (hinserts : ∀ event ∈ events, event.InsertsUnready)
    (hnames : ∀ event ∈ events, event.NamesBuckets config.broadcastBuckets.length)
    (hrun : events.foldlM (BroadcastRun.step config) (.start config mempool) = some run) :
    ∃ reads, run.Tracks (fun t => ∀ id, t.timelineState ≠ .ready id) reads := by
  have hunready : Unready (P := P) fun t => ∀ id, t.timelineState ≠ .ready id :=
    fun _ id ht => ht id
  refine (CheckedLoops.foldlM_keeps (I := fun run : BroadcastRun P =>
    run.peer.timelineId.length = config.broadcastBuckets.length ∧
      ∃ reads, run.Tracks (fun t => ∀ id, t.timelineState ≠ .ready id) reads)
    ⟨List.length_replicate, [], .start hnew⟩ ?_ hrun).2
  rintro event hevent run run' ⟨hlength, reads, htracks⟩ hstep
  refine ⟨(step_timelineId hstep).1.trans hlength, ?_⟩
  cases event with
  | perform call =>
    obtain ⟨mempool, hmempool, rfl⟩ := Option.map_eq_some_iff.mp hstep
    exact ⟨reads, htracks.perform hunready (hinserts _ hevent) hmempool⟩
  | broadcast attempt => exact htracks.broadcast hunready hstep
  | acknowledge batchId retry backoff timestamp =>
    exact ⟨reads, htracks.acknowledge ((hnames _ hevent).trans hlength.symm) hstep⟩

/-- The ids of a peer never go back. If the acknowledgements name batches with all buckets, no
transaction is skipped, and a batch that is sent again is the one that was first sent last: it is
the first one only if no other batch waits. -/
theorem BroadcastRun.skips_nothing [DecidableEq P] {config : BroadcastConfig} {overheadBytes : ℕ}
    {mempool : TransactionStore P} {events : List (BroadcastEvent P)} {run : BroadcastRun P}
    (hnew : TransactionStore.new config.toMempoolConfig overheadBytes = some mempool)
    (hinserts : ∀ event ∈ events, event.InsertsUnready)
    (hrun : events.foldlM (BroadcastRun.step config) (.start config mempool) = some run) :
    (∀ event run', run.step config event = some run' → ∀ bucket,
      run.peer.timelineId.getD bucket 0 ≤ run'.peer.timelineId.getD bucket 0) ∧
    ((∀ event ∈ events, event.NamesBuckets config.broadcastBuckets.length) → run.Covers ∧
      ∀ attempt state batch,
        config.determineBroadcastBatch attempt run.mempool run.peer = some (state, .ok batch) →
        (∃ id, state.Waiting config attempt id) →
        (∀ id, state.Waiting config attempt id → id ∈ run.sent ∧
          run.sent.idxOf id ≤ run.sent.idxOf batch.batchId) ∧
        state.Waiting config attempt batch.batchId ∧
        ((∀ id, state.Waiting config attempt id →
            run.sent.idxOf batch.batchId ≤ run.sent.idxOf id) ↔
          ∀ id, state.Waiting config attempt id → id = batch.batchId)) := by
  refine ⟨fun event run' hstep => (step_timelineId hstep).2, fun hnames => ?_⟩
  obtain ⟨reads, htracks⟩ := tracks_of_run hnew hinserts hnames hrun
  refine ⟨htracks.covers, ?_⟩
  rintro attempt state batch hdetermine ⟨id, hid⟩
  obtain ⟨-, _, herror⟩ | ⟨hsync, hselect⟩ :=
    BroadcastConfig.determineBroadcastBatch_cases hdetermine
  · cases herror
  have hsynced := htracks.sync (fun _ id ht => ht id) hsync
  have hsent : ∀ id, state.Waiting config attempt id → id ∈ run.sent :=
    fun id hid => hsynced.mem_sent.mpr (hsynced.known id hid.tracked)
  obtain ⟨-, hwaiting, hgreatest⟩ | ⟨-, hnone, -⟩ :=
    BroadcastConfig.selectBatch_ok hsynced.sentBatches hsynced.retryBatches hselect
  swap
  · exact absurd hid (hnone id)
  have hle : ∀ id, state.Waiting config attempt id → id = batch.batchId ∨
      run.sent.idxOf id < run.sent.idxOf batch.batchId := by
    intro id hid
    refine (hgreatest id hid).imp_right fun hlt => ?_
    exact hsynced.idxOf_lt (hsent id hid) (hsent _ hwaiting) hlt
  refine ⟨fun id hid => ⟨hsent id hid, ?_⟩, hwaiting, fun hfirst id hid => ?_,
    fun honly id hid => ?_⟩
  · obtain rfl | hlt := hle id hid
    · exact le_rfl
    · exact hlt.le
  · exact (hle id hid).resolve_right (Nat.not_lt.mpr (hfirst id hid))
  · rw [honly id hid]

open TransactionStore.SmallPool

/-- Two batches of one transaction may wait for an answer. -/
def TransactionStore.SmallPool.broadcasts : BroadcastConfig :=
  { config with
    defaultFailovers := 3
    maxBroadcastsPerPeer := 2
    sharedMempoolAckTimeoutMs := 10
    sharedMempoolBatchSize := 1 }

def TransactionStore.SmallPool.attempt (now : ℕ) : BroadcastAttempt :=
  ⟨true, [], 0, false, fun _ => now, now, true⟩

/-- The transactions of an account come in and are sent. -/
def TransactionStore.SmallPool.sends : ℕ → List (BroadcastEvent Unit)
  | 0 => []
  | n + 1 => sends n ++
      [.perform (.insert (transfer n 3 .notReady 0) 0), .broadcast (attempt 0)]

theorem TransactionStore.SmallPool.sends_unready (n : ℕ) :
    (∀ event ∈ sends n, event.InsertsUnready) ∧
      ∀ event ∈ sends n, event.NamesBuckets broadcasts.broadcastBuckets.length := by
  induction n with
  | zero => exact ⟨fun _ h => absurd h List.not_mem_nil, fun _ h => absurd h List.not_mem_nil⟩
  | succ n ih =>
    constructor
    · intro event hevent
      obtain hevent | hevent := List.mem_append.mp hevent
      · exact ih.1 event hevent
      · obtain rfl | hevent := List.mem_cons.mp hevent
        · intro id hid
          cases hid
        · rw [List.mem_singleton.mp hevent]
          trivial
    · intro event hevent
      obtain hevent | hevent := List.mem_append.mp hevent
      · exact ih.2 event hevent
      · obtain rfl | hevent := List.mem_cons.mp hevent
        · trivial
        · rw [List.mem_singleton.mp hevent]
          trivial

/-- After the two batches are sent, nothing is skipped. -/
theorem BroadcastRun.skips_nothing_two : ∃ run : BroadcastRun Unit,
    run.sent = [[(0, 1)], [(1, 2)]] ∧ run.Covers := by
  have hnew : TransactionStore.new (P := Unit) broadcasts.toMempoolConfig 1 = some _ := rfl
  exact ⟨_, rfl, ((skips_nothing hnew (sends_unready 2).1 rfl).2 (sends_unready 2).2).1⟩

/-- An acknowledgement that names no bucket takes a batch away that it does not name, and of two
batches that wait too long the second one is sent again. -/
theorem BroadcastRun.skips_nothing_fails :
    (∃ (mempool : TransactionStore Unit) (events : List (BroadcastEvent Unit))
      (run : BroadcastRun Unit),
      TransactionStore.new broadcasts.toMempoolConfig 1 = some mempool ∧
      (∀ event ∈ events, event.InsertsUnready) ∧
      events.foldlM (BroadcastRun.step broadcasts) (.start broadcasts mempool) = some run ∧
      ¬ run.Covers) ∧
    ∃ (mempool : TransactionStore Unit) (events : List (BroadcastEvent Unit))
      (run : BroadcastRun Unit),
      TransactionStore.new broadcasts.toMempoolConfig 1 = some mempool ∧
      (∀ event ∈ events, event.InsertsUnready) ∧
      (∀ event ∈ events, event.NamesBuckets broadcasts.broadcastBuckets.length) ∧
      events.foldlM (BroadcastRun.step broadcasts) (.start broadcasts mempool) = some run ∧
      ∃ (state : PeerSyncState) (batch : BroadcastBatch Unit) (id : MultiBatchId),
        broadcasts.determineBroadcastBatch (attempt 100) run.mempool run.peer =
          some (state, .ok batch) ∧
        state.Waiting broadcasts (attempt 100) id ∧
        run.sent.idxOf id < run.sent.idxOf batch.batchId := by
  constructor
  · refine ⟨_, sends 1 ++ [.acknowledge [] true false 5], _, rfl, fun event hevent => ?_, rfl, ?_⟩
    · obtain hevent | hevent := List.mem_append.mp hevent
      · exact (sends_unready 1).1 event hevent
      · rw [List.mem_singleton.mp hevent]
        trivial
    · intro hcovers
      obtain ⟨batch, hsent, hknown, -⟩ :=
        hcovers 0 1 (transfer 0 3 .notReady 0).pointer ⟨_, rfl, List.mem_cons_self⟩ le_rfl
      obtain rfl := List.mem_singleton.mp hsent
      obtain hacked | ⟨entry, hentry, -⟩ | ⟨entry, hentry, heq⟩ := hknown
      · cases hacked
      · cases hentry
      · rw [List.mem_singleton.mp hentry] at heq
        cases heq
  · refine ⟨_, sends 2, _, rfl, (sends_unready 2).1, (sends_unready 2).2, rfl, _, _, [(0, 1)], rfl,
      Or.inl ⟨([(0, 1)], 0), List.mem_cons_self, rfl⟩, by decide⟩

end Tracks

end Anthemius.Mempool

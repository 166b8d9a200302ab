import Anthemius.MempoolRuns

/-!
# One read of the timeline

The buckets are read from the last to the first. From each, the entries behind its id are taken
while the count allows it, and of these the transactions while the bytes allow it.
-/
namespace Anthemius.Mempool

theorem getD_eq_getElem {ids : List ℕ} {bucket : ℕ} (h : bucket < ids.length) :
    ids.getD bucket 0 = ids[bucket] := by
  rw [List.getD_eq_getElem?_getD, List.getElem?_eq_getElem h]
  rfl

/-! ## The count -/

/-- The first elements of several lists, up to a number of them in all. -/
def takeAcross {α : Type} : ℕ → List (List α) → List (List α)
  | _, [] => []
  | n, l :: rest => l.take n :: takeAcross (n - l.length) rest

section Across
variable {α : Type} {n : ℕ} {lists : List (List α)}

theorem takeAcross_zero : takeAcross 0 lists = lists.map fun _ => [] := by
  induction lists with
  | nil => rfl
  | cons l rest ih => rw [takeAcross, Nat.zero_sub, ih, List.take_zero, List.map_cons]

theorem length_takeAcross : (takeAcross n lists).length = lists.length := by
  induction lists generalizing n with
  | nil => rfl
  | cons l rest ih => rw [takeAcross, List.length_cons, ih, List.length_cons]

theorem length_flatten_takeAcross : (takeAcross n lists).flatten.length ≤ n := by
  induction lists generalizing n with
  | nil => exact Nat.zero_le n
  | cons l rest ih =>
    have hrest : (takeAcross (n - l.length) rest).flatten.length ≤ n - l.length := ih
    rw [takeAcross, List.flatten_cons, List.length_append, List.length_take]
    omega

theorem takeAcross_prefix :
    List.Forall₂ (fun taken l => taken <+: l) (takeAcross n lists) lists := by
  induction lists generalizing n with
  | nil => exact .nil
  | cons l rest ih => exact .cons (List.take_prefix n l) ih

theorem exists_prefix_of_mem_takeAcross {taken : List α} (h : taken ∈ takeAcross n lists) :
    ∃ l ∈ lists, taken <+: l := by
  obtain ⟨i, hi, rfl⟩ := List.getElem_of_mem h
  have hlt : i < lists.length := length_takeAcross ▸ hi
  exact ⟨lists[i], List.getElem_mem hlt, takeAcross_prefix.get hi hlt⟩

end Across

namespace TimelineIndex
variable {index : TimelineIndex} {count : ℕ}

/-- The entries behind an id. -/
def pending (index : TimelineIndex) (timelineId : ℕ) : List (ℕ × TxnPointer) :=
  index.timeline.filter (timelineId < ·.1)

theorem readLoop_eq {entries : List (ℕ × TxnPointer)} {batch : List TxnPointer}
    (h : batch.length < count) :
    readLoop count entries batch = batch ++ (entries.take (count - batch.length)).map Prod.snd := by
  induction entries generalizing batch with
  | nil => simp [readLoop]
  | cons entry rest ih =>
    have hlength : (batch ++ [entry.2]).length = batch.length + 1 := by simp
    obtain ⟨k, hk⟩ : ∃ k, count - batch.length = k + 1 := ⟨count - batch.length - 1, by omega⟩
    rw [readLoop, hk, List.take_succ_cons, List.map_cons]
    split
    next hfull =>
      have hzero : k = 0 := by omega
      rw [hzero, List.take_zero, List.map_nil]
    next hfull =>
      have hnext : count - (batch ++ [entry.2]).length = k := by omega
      rw [ih (by omega), hnext, List.append_assoc, List.singleton_append]

theorem readTimeline_eq (timelineId : ℕ) (h : 0 < count) :
    index.readTimeline timelineId count =
      ((index.pending timelineId).take count).map Prod.snd := by
  have hloop : readLoop count (index.pending timelineId) [] = _ := readLoop_eq h
  exact hloop

end TimelineIndex

namespace MultiBucketTimelineIndex
variable {index : MultiBucketTimelineIndex} {count : ℕ}

theorem readLoop_eq {buckets : List (TimelineIndex × ℕ)} {added : ℕ} (h : added < count) :
    readLoop count buckets added =
      some ((takeAcross (count - added) (buckets.map fun bucket => bucket.1.pending bucket.2)).map
        (·.map Prod.snd)) := by
  induction buckets generalizing added with
  | nil => rfl
  | cons bucket rest ih =>
    obtain ⟨timeline, timelineId⟩ := bucket
    have hread : timeline.readTimeline timelineId (count - added) = _ :=
      TimelineIndex.readTimeline_eq timelineId (Nat.sub_pos_of_lt h)
    rw [readLoop, if_neg (Nat.not_lt.mpr h.le), List.map_cons, takeAcross, List.map_cons]
    dsimp only
    rw [hread, List.length_map, List.length_take]
    split
    next hfull =>
      have hzero : count - added - (timeline.pending timelineId).length = 0 := by omega
      rw [hzero, takeAcross_zero, List.map_map, List.map_map]
      rfl
    next hfull =>
      have hmin : added + min (count - added) (timeline.pending timelineId).length =
          added + (timeline.pending timelineId).length := by omega
      have hrest : count - (added + (timeline.pending timelineId).length) =
          count - added - (timeline.pending timelineId).length := by omega
      rw [hmin, ih (by omega), hrest]
      rfl

/-- The entries of a bucket. -/
def entries (index : MultiBucketTimelineIndex) (bucket : ℕ) : List (ℕ × TxnPointer) :=
  ((index.timelines[bucket]?).map (·.timeline)).getD []

theorem entries_eq {bucket : ℕ} (h : bucket < index.timelines.length) :
    index.entries bucket = index.timelines[bucket].timeline := by
  rw [entries, List.getElem?_eq_getElem h]
  rfl

theorem mem_entries {bucket : ℕ} {entry : ℕ × TxnPointer} :
    entry ∈ index.entries bucket ↔ index.Holds bucket entry.1 entry.2 := by
  rw [entries, Holds]
  cases index.timelines[bucket]? with
  | none => simp
  | some timeline => simp

theorem Valid.ordered_entries (h : index.Valid) (bucket : ℕ) :
    OrderedEntries.Ordered (index.entries bucket) := by
  rw [entries]
  cases hbucket : index.timelines[bucket]? with
  | none => exact .nil
  | some timeline => exact (h.timelines timeline (List.mem_of_getElem? hbucket)).ordered

end MultiBucketTimelineIndex

/-! ## The bytes -/

/-- The id of the last entry that is read. -/
def lastId (timelineId : ℕ) (entries : List (ℕ × TxnPointer)) : ℕ :=
  entries.foldl (fun _ entry => entry.1) timelineId

theorem lastId_eq (timelineId : ℕ) (entries : List (ℕ × TxnPointer)) :
    lastId timelineId entries = timelineId ∨
      ∃ entry ∈ entries, lastId timelineId entries = entry.1 := by
  induction entries generalizing timelineId with
  | nil => exact Or.inl rfl
  | cons entry rest ih =>
    obtain heq | ⟨e, he, heq⟩ := ih entry.1
    · exact Or.inr ⟨entry, List.mem_cons_self, heq⟩
    · exact Or.inr ⟨e, List.mem_cons_of_mem entry he, heq⟩

theorem filter_le_lastId {timelineId : ℕ} {read entries : List (ℕ × TxnPointer)}
    (hread : read <+: entries) (hordered : OrderedEntries.Ordered entries)
    (hlt : ∀ entry ∈ entries, timelineId < entry.1) :
    entries.filter (·.1 ≤ lastId timelineId read) = read ∧
      timelineId ≤ lastId timelineId read := by
  obtain ⟨rest, rfl⟩ := hread
  induction read generalizing timelineId with
  | nil =>
    refine ⟨List.filter_eq_nil_iff.mpr fun entry hentry hle => ?_, le_rfl⟩
    exact absurd (of_decide_eq_true hle) (Nat.not_le.mpr (hlt entry hentry))
  | cons entry read ih =>
    obtain ⟨hhead, htail⟩ := List.pairwise_cons.mp hordered
    obtain ⟨hfilter, hle⟩ := ih htail fun e he => hhead e.1 (List.mem_map_of_mem he)
    change List.filter (·.1 ≤ lastId entry.1 read) (entry :: (read ++ rest)) = _ ∧ _
    rw [List.filter_cons, if_pos (decide_eq_true hle), hfilter]
    exact ⟨rfl, (hlt entry List.mem_cons_self).le.trans hle⟩

namespace TransactionStore
variable {P : Type} {s : TransactionStore P}

/-- The transaction of an entry. -/
def txnOf (s : TransactionStore P) (entry : ℕ × TxnPointer) : Option (SignedTransaction P) :=
  (s.getMempoolTxn entry.2).map (·.txn)

def bytesOf (s : TransactionStore P) (entry : ℕ × TxnPointer) : ℕ :=
  ((s.txnOf entry).map (·.rawTxnBytesLen)).getD 0

/-- The transactions of the entries are stored as ready under their ids. -/
def Readable (s : TransactionStore P) (entries : List (ℕ × TxnPointer)) : Prop :=
  ∀ entry ∈ entries, ∃ t, s.getMempoolTxn entry.2 = some t ∧ t.timelineState = .ready entry.1

/-- The entries of a bucket up to the first one that does not fit. -/
def fitting (s : TransactionStore P) : ℕ → List (ℕ × TxnPointer) → List (ℕ × TxnPointer)
  | _, [] => []
  | total, entry :: rest =>
    if s.maxBatchBytes < saturatingAdd total (s.bytesOf entry) then []
    else entry :: s.fitting (saturatingAdd total (s.bytesOf entry)) rest

def bytesAfter (s : TransactionStore P) (total : ℕ) (entries : List (ℕ × TxnPointer)) : ℕ :=
  entries.foldl (fun total entry => saturatingAdd total (s.bytesOf entry)) total

theorem readBucket_eq {entries : List (ℕ × TxnPointer)} (h : s.Readable entries)
    (txns : List (SignedTransaction P)) (total timelineId : ℕ) :
    s.readBucket (entries.map Prod.snd) ⟨txns, total, timelineId⟩ =
      ⟨txns ++ (s.fitting total entries).filterMap s.txnOf,
        s.bytesAfter total (s.fitting total entries),
        lastId timelineId (s.fitting total entries)⟩ := by
  induction entries generalizing txns total timelineId with
  | nil => simp [readBucket, fitting, bytesAfter, lastId]
  | cons entry rest ih =>
    obtain ⟨t, hget, hstate⟩ := h entry List.mem_cons_self
    have htxn : s.txnOf entry = some t.txn := by rw [txnOf, hget, Option.map_some]
    have hbytes : s.bytesOf entry = t.txn.rawTxnBytesLen := by rw [bytesOf, htxn]; rfl
    rw [List.map_cons, readBucket, hget, fitting, hbytes]
    dsimp only
    split
    next => simp [bytesAfter, lastId]
    next =>
      rw [ih fun e he => h e (List.mem_cons_of_mem _ he), hstate,
        List.filterMap_cons_some htxn, List.append_assoc, List.singleton_append]
      simp only [bytesAfter, lastId, List.foldl_cons, hbytes]

/-- The entries of all buckets that fit. -/
def fittingAcross (s : TransactionStore P) :
    ℕ → List (List (ℕ × TxnPointer)) → List (List (ℕ × TxnPointer))
  | _, [] => []
  | total, bucket :: rest =>
    s.fitting total bucket :: s.fittingAcross (s.bytesAfter total (s.fitting total bucket)) rest

theorem length_fittingAcross {total : ℕ} {buckets : List (List (ℕ × TxnPointer))} :
    (s.fittingAcross total buckets).length = buckets.length := by
  induction buckets generalizing total with
  | nil => rfl
  | cons bucket rest ih => rw [fittingAcross, List.length_cons, ih, List.length_cons]

theorem readBuckets_eq {buckets : List (List (ℕ × TxnPointer))} {ids : List ℕ}
    (h : ∀ bucket ∈ buckets, s.Readable bucket) (hlength : buckets.length = ids.length)
    (txns : List (SignedTransaction P)) (total : ℕ) :
    s.readBuckets ((buckets.map (·.map Prod.snd)).zip ids) txns total =
      (txns ++ (s.fittingAcross total buckets).flatten.filterMap s.txnOf,
        List.zipWith (fun bucket id => lastId id bucket) (s.fittingAcross total buckets) ids) := by
  induction buckets generalizing ids txns total with
  | nil => simp [readBuckets, fittingAcross]
  | cons bucket rest ih =>
    cases ids with
    | nil => simp at hlength
    | cons id ids =>
      rw [List.map_cons, List.zip_cons_cons, readBuckets,
        readBucket_eq (h bucket List.mem_cons_self)]
      dsimp only
      rw [ih (fun l hl => h l (List.mem_cons_of_mem _ hl)) (by simpa using hlength)]
      simp only [fittingAcross, List.flatten_cons, List.filterMap_append, List.append_assoc,
        List.zipWith_cons_cons]

/-! ## One read -/

/-- The entries of each bucket behind its id. -/
def opened (s : TransactionStore P) (ids : List ℕ) : List (List (ℕ × TxnPointer)) :=
  List.zipWith TimelineIndex.pending s.timelineIndex.timelines ids

/-- The entries of each bucket that are read. -/
def delivered (s : TransactionStore P) (ids : List ℕ) (count : ℕ) : List (List (ℕ × TxnPointer)) :=
  (s.fittingAcross 0 (takeAcross count (s.opened ids).reverse)).reverse

variable {ids : List ℕ} {count : ℕ}

theorem prefixes_fittingAcross {total : ℕ} {buckets : List (List (ℕ × TxnPointer))} :
    List.Forall₂ (fun read l => read <+: l) (s.fittingAcross total buckets) buckets := by
  have hfitting : ∀ entries total, s.fitting total entries <+: entries := by
    intro entries
    induction entries with
    | nil => exact fun _ => List.prefix_rfl
    | cons entry rest ih =>
      intro total
      rw [fitting]
      split
      · exact List.nil_prefix
      · exact (List.prefix_cons_inj entry).mpr (ih _)
  induction buckets generalizing total with
  | nil => exact .nil
  | cons bucket rest ih => exact .cons (hfitting bucket total) ih

theorem delivered_prefix :
    List.Forall₂ (fun read l => read <+: l) (s.delivered ids count) (s.opened ids) := by
  rw [← List.forall₂_reverse_iff, delivered, List.reverse_reverse]
  have htaken : List.Forall₂ (fun taken l : List (ℕ × TxnPointer) => taken <+: l)
      (takeAcross count (s.opened ids).reverse) (s.opened ids).reverse := takeAcross_prefix
  refine List.forall₂_iff_get.mpr ⟨?_, fun i hread hopened => ?_⟩
  · exact prefixes_fittingAcross.length_eq.trans htaken.length_eq
  · have hmiddle : i < (takeAcross count (s.opened ids).reverse).length := by
      rw [length_takeAcross]
      exact hopened
    exact (prefixes_fittingAcross.get hread hmiddle).trans (htaken.get hmiddle hopened)

theorem length_opened (h : ids.length = s.timelineIndex.timelines.length) :
    (s.opened ids).length = ids.length := by
  rw [opened, List.length_zipWith, h, min_self]

theorem length_delivered (h : ids.length = s.timelineIndex.timelines.length) :
    (s.delivered ids count).length = ids.length :=
  delivered_prefix.length_eq.trans (length_opened h)

theorem readTimeline_eq (hvalid : s.timelineIndex.Valid)
    (hreadable : ∀ bucket ∈ s.opened ids, s.Readable bucket)
    (hlength : ids.length = s.timelineIndex.timelines.length) (hcount : 0 < count) :
    s.readTimeline ids count =
      some ((s.delivered ids count).reverse.flatten.filterMap s.txnOf,
        List.zipWith (fun bucket id => lastId id bucket) (s.delivered ids count) ids) := by
  have hbuckets : (s.timelineIndex.timelines.zip ids).reverse.map (fun b => b.1.pending b.2) =
      (s.opened ids).reverse := by
    rw [List.map_reverse, List.map_zip_eq_zipWith]
    rfl
  have hread : s.timelineIndex.readTimeline ids count =
      some ((takeAcross count (s.opened ids).reverse).map (·.map Prod.snd)).reverse := by
    rw [MultiBucketTimelineIndex.readTimeline, if_pos (hlength.trans hvalid.length),
      MultiBucketTimelineIndex.readLoop_eq hcount, hbuckets, Option.map_some, Nat.sub_zero]
  have htaken : (takeAcross count (s.opened ids).reverse).length = ids.reverse.length := by
    rw [length_takeAcross, List.length_reverse, List.length_reverse, length_opened hlength]
  have hall : ∀ bucket ∈ takeAcross count (s.opened ids).reverse, s.Readable bucket := by
    intro bucket hbucket entry hentry
    obtain ⟨l, hl, htake⟩ := exists_prefix_of_mem_takeAcross hbucket
    exact hreadable l (List.mem_reverse.mp hl) entry (htake.subset hentry)
  have hzip : ((((takeAcross count (s.opened ids).reverse).map (·.map Prod.snd)).reverse).zip
      ids).reverse = ((takeAcross count (s.opened ids).reverse).map (·.map Prod.snd)).zip
        ids.reverse := by
    rw [List.zip_eq_zipWith, List.reverse_zipWith, List.reverse_reverse]
    · rfl
    · rw [List.length_reverse, List.length_map, htaken, List.length_reverse]
  rw [readTimeline, hread, Option.bind_eq_bind, Option.bind_some, hzip,
    readBuckets_eq hall htaken, List.nil_append]
  dsimp only
  rw [List.reverse_zipWith, delivered, List.reverse_reverse, List.reverse_reverse]
  rw [length_fittingAcross, htaken]

/-- The entries of a bucket between two ids. -/
def inRange (s : TransactionStore P) (before after : List ℕ) (bucket : ℕ) : List (ℕ × TxnPointer) :=
  (s.timelineIndex.entries bucket).filter fun entry =>
    before.getD bucket 0 < entry.1 ∧ entry.1 ≤ after.getD bucket 0

/-- The ids after a read. -/
def idsAfter (s : TransactionStore P) (ids : List ℕ) (count : ℕ) : List ℕ :=
  List.zipWith (fun bucket id => lastId id bucket) (s.delivered ids count) ids

section Ids
variable (hvalid : s.timelineIndex.Valid)
  (hlength : ids.length = s.timelineIndex.timelines.length)
include hlength

theorem length_idsAfter : (s.idsAfter ids count).length = ids.length := by
  rw [idsAfter, List.length_zipWith, length_delivered hlength, min_self]

include hvalid

/-- Nothing between the ids before and after is left out. The new id of a bucket is the old one or
that of an entry. -/
theorem inRange_idsAfter {bucket : ℕ} (hlt : bucket < (s.delivered ids count).length) :
    s.inRange ids (s.idsAfter ids count) bucket = (s.delivered ids count)[bucket] ∧
      ids.getD bucket 0 ≤ (s.idsAfter ids count).getD bucket 0 ∧
      ((s.idsAfter ids count).getD bucket 0 = ids.getD bucket 0 ∨
        ∃ p, s.timelineIndex.Holds bucket ((s.idsAfter ids count).getD bucket 0) p) := by
  have hids : bucket < ids.length := length_delivered hlength ▸ hlt
  have htimelines : bucket < s.timelineIndex.timelines.length := hlength ▸ hids
  have hopened : bucket < (s.opened ids).length := (length_opened hlength).symm ▸ hids
  have hafter : bucket < (s.idsAfter ids count).length := (length_idsAfter hlength).symm ▸ hids
  have hpending : (s.opened ids)[bucket] =
      s.timelineIndex.timelines[bucket].pending ids[bucket] := List.getElem_zipWith ..
  have hentries := MultiBucketTimelineIndex.entries_eq htimelines
  have hordered := (hvalid.timelines _ (List.getElem_mem htimelines)).ordered
  have hread : (s.delivered ids count)[bucket] <+: (s.opened ids)[bucket] :=
    delivered_prefix.get hlt hopened
  rw [hpending] at hread
  obtain ⟨hfilter, hle⟩ := filter_le_lastId hread
    (hordered.sublist (List.filter_sublist.map _))
    fun entry hentry => of_decide_eq_true (List.mem_filter.mp hentry).2
  have hlast : (s.idsAfter ids count).getD bucket 0 =
      lastId ids[bucket] (s.delivered ids count)[bucket] := by
    rw [getD_eq_getElem hafter]
    exact List.getElem_zipWith ..
  rw [inRange, hlast, getD_eq_getElem hids, hentries]
  refine ⟨Eq.trans ?_ hfilter, hle, (lastId_eq _ _).imp_right ?_⟩
  · rw [TimelineIndex.pending, List.filter_filter]
    exact List.filter_congr fun entry _ => (Bool.decide_and _ _).trans (Bool.and_comm _ _)
  · rintro ⟨entry, hentry, heq⟩
    refine ⟨entry.2, ?_⟩
    rw [heq, ← MultiBucketTimelineIndex.mem_entries, hentries]
    exact List.mem_of_mem_filter (hread.subset hentry)

theorem idsAfter_getD (bucket : ℕ) :
    ids.getD bucket 0 ≤ (s.idsAfter ids count).getD bucket 0 ∧
      ((s.idsAfter ids count).getD bucket 0 = ids.getD bucket 0 ∨
        ∃ p, s.timelineIndex.Holds bucket ((s.idsAfter ids count).getD bucket 0) p) := by
  by_cases hlt : bucket < ids.length
  · have hdelivered : bucket < (s.delivered ids count).length :=
      (length_delivered hlength).symm ▸ hlt
    exact (inRange_idsAfter hvalid hlength hdelivered).2
  · have hafter : (s.idsAfter ids count).length ≤ bucket := by
      rw [length_idsAfter hlength]
      exact Nat.not_lt.mp hlt
    have heq : (s.idsAfter ids count).getD bucket 0 = ids.getD bucket 0 := by
      rw [List.getD_eq_getElem?_getD, List.getD_eq_getElem?_getD, List.getElem?_eq_none hafter,
        List.getElem?_eq_none (Nat.not_lt.mp hlt)]
    exact ⟨heq.ge, Or.inl heq⟩

theorem delivered_eq : s.delivered ids count =
    (List.range ids.length).map (s.inRange ids (s.idsAfter ids count)) := by
  refine List.ext_getElem ?_ fun bucket hbucket hrange => ?_
  · rw [length_delivered hlength, List.length_map, List.length_range]
  · rw [List.getElem_map, List.getElem_range, (inRange_idsAfter hvalid hlength hbucket).1]

end Ids

/-! ## Limits -/

theorem length_flatten_le {α : Type} {short long : List (List α)}
    (h : List.Forall₂ (fun a b => a <+: b) short long) :
    short.flatten.length ≤ long.flatten.length := by
  induction h with
  | nil => exact le_rfl
  | cons hhead _ ih =>
    rw [List.flatten_cons, List.flatten_cons, List.length_append, List.length_append]
    exact Nat.add_le_add hhead.length_le ih

theorem length_delivered_le : (s.delivered ids count).reverse.flatten.length ≤ count := by
  rw [delivered, List.reverse_reverse]
  exact (length_flatten_le prefixes_fittingAcross).trans length_flatten_takeAcross

theorem bytesAfter_fitting_le {total : ℕ} {entries : List (ℕ × TxnPointer)}
    (h : total ≤ s.maxBatchBytes) :
    s.bytesAfter total (s.fitting total entries) ≤ s.maxBatchBytes := by
  induction entries generalizing total with
  | nil => exact h
  | cons entry rest ih =>
    rw [fitting]
    split
    next => exact h
    next hfits => exact ih (Nat.not_lt.mp hfits)

theorem bytesAfter_fittingAcross_le {total : ℕ} {buckets : List (List (ℕ × TxnPointer))}
    (h : total ≤ s.maxBatchBytes) :
    s.bytesAfter total (s.fittingAcross total buckets).flatten ≤ s.maxBatchBytes := by
  induction buckets generalizing total with
  | nil => exact h
  | cons bucket rest ih =>
    rw [fittingAcross, List.flatten_cons, bytesAfter, List.foldl_append]
    exact ih (bytesAfter_fitting_le h)

theorem bytesAfter_eq {total : ℕ} (h : total ≤ 2 ^ 64 - 1) (entries : List (ℕ × TxnPointer)) :
    s.bytesAfter total entries =
      min (total + ((entries.filterMap s.txnOf).map (·.rawTxnBytesLen)).sum) (2 ^ 64 - 1) := by
  induction entries generalizing total with
  | nil => exact (min_eq_left h).symm
  | cons entry rest ih =>
    have hnext : s.bytesAfter total (entry :: rest) =
        s.bytesAfter (saturatingAdd total (s.bytesOf entry)) rest := rfl
    have hle : saturatingAdd total (s.bytesOf entry) ≤ 2 ^ 64 - 1 := min_le_right ..
    rw [hnext, ih hle, saturatingAdd, bytesOf]
    cases htxn : s.txnOf entry with
    | none =>
      rw [List.filterMap_cons_none htxn, Option.map_none, Option.getD_none, Nat.add_zero,
        min_eq_left h]
    | some txn =>
      rw [List.filterMap_cons_some htxn, List.map_cons, List.sum_cons, Option.map_some,
        Option.getD_some]
      omega

theorem exists_head_read {buckets : List (List (ℕ × TxnPointer))} (hcount : 0 < count)
    (hfits : ∀ bucket ∈ buckets, ∀ entry ∈ bucket, s.bytesOf entry ≤ s.maxBatchBytes)
    {i : ℕ} {bucket : List (ℕ × TxnPointer)} (hi : buckets[i]? = some bucket)
    (hne : bucket ≠ []) :
    ∃ j ≤ i, ∃ entry rest read, buckets[j]? = some (entry :: rest) ∧
      (s.fittingAcross 0 (takeAcross count buckets))[j]? = some (entry :: read) := by
  induction buckets generalizing i with
  | nil => cases hi
  | cons first others ih =>
    cases first with
    | cons entry rest =>
      obtain ⟨k, hk⟩ := Nat.exists_eq_succ_of_ne_zero hcount.ne'
      have hone : ¬ s.maxBatchBytes < saturatingAdd 0 (s.bytesOf entry) := by
        have hle := hfits _ List.mem_cons_self entry List.mem_cons_self
        rw [saturatingAdd]
        omega
      refine ⟨0, Nat.zero_le i, entry, rest,
        s.fitting (saturatingAdd 0 (s.bytesOf entry)) (rest.take k), rfl, ?_⟩
      rw [takeAcross, hk, List.take_succ_cons, fittingAcross, fitting, if_neg hone]
      rfl
    | nil =>
      cases i with
      | zero => exact absurd (Option.some.inj hi).symm hne
      | succ i =>
        obtain ⟨j, hj, entry, rest, read, hopened, hread⟩ :=
          ih (fun l hl => hfits l (List.mem_cons_of_mem _ hl)) hi
        refine ⟨j + 1, Nat.succ_le_succ hj, entry, rest, read, hopened, ?_⟩
        rw [takeAcross, List.take_nil, List.length_nil, Nat.sub_zero]
        exact hread

/-! ## What a read returns -/

/-- The batch has the entries of each bucket between the ids before and after, within the limits.
A read goes on: of what is left, it returns an entry that is not behind a given one, unless a
transaction alone is above the limit. -/
structure ReadsTo (s : TransactionStore P) (ids : List ℕ) (count : ℕ)
    (batch : List (SignedTransaction P)) (after : List ℕ) : Prop where
  length_eq : after.length = ids.length
  batch_eq : batch =
    ((List.range ids.length).reverse.flatMap (s.inRange ids after)).filterMap s.txnOf
  ids_le : ∀ bucket, ids.getD bucket 0 ≤ after.getD bucket 0
  after_eq : ∀ bucket, after.getD bucket 0 = ids.getD bucket 0 ∨
    ∃ p, s.timelineIndex.Holds bucket (after.getD bucket 0) p
  count_le : batch.length ≤ count
  bytes_le : min (batch.map (·.rawTxnBytesLen)).sum (2 ^ 64 - 1) ≤ s.maxBatchBytes
  goesOn : (∀ t ∈ s.transactions, t.txn.rawTxnBytesLen ≤ s.maxBatchBytes) →
    ∀ bucket id p, s.timelineIndex.Holds bucket id p → ids.getD bucket 0 < id →
      ∃ bucket', ∃ entry ∈ s.inRange ids after bucket',
        bucket < bucket' ∨ bucket' = bucket ∧ entry.1 ≤ id

variable {world : MempoolTransaction P → Prop}

theorem Indexed.readable (h : s.Consistent world) (hunready : Unready world) :
    ∀ bucket ∈ s.opened ids, s.Readable bucket := by
  intro bucket hbucket entry hentry
  obtain ⟨i, hi, rfl⟩ := List.getElem_of_mem hbucket
  have htimeline : i < s.timelineIndex.timelines.length := by
    rw [opened, List.length_zipWith] at hi
    exact (lt_min_iff.mp hi).1
  have hmem : entry ∈ s.timelineIndex.timelines[i].timeline := by
    have hzip : (s.opened ids)[i] = s.timelineIndex.timelines[i].pending _ :=
      List.getElem_zipWith ..
    rw [hzip] at hentry
    exact List.mem_of_mem_filter hentry
  have hholds : s.timelineIndex.Holds i entry.1 entry.2 :=
    ⟨_, List.getElem?_eq_getElem htimeline, hmem⟩
  obtain ⟨t, ht, hpointer, hstate, -⟩ := (h.timeline hunready _ _ _).mp hholds
  exact ⟨t, h.getMempoolTxn_eq_some.mpr ⟨ht, hpointer⟩, hstate⟩

theorem bytesOf_le {entry : ℕ × TxnPointer}
    (h : ∀ t ∈ s.transactions, t.txn.rawTxnBytesLen ≤ s.maxBatchBytes) :
    s.bytesOf entry ≤ s.maxBatchBytes := by
  rw [bytesOf, txnOf]
  cases hget : s.getMempoolTxn entry.2 with
  | none => exact Nat.zero_le _
  | some t => exact h t (List.mem_of_find?_eq_some hget)

theorem getElem?_reverse_last {α : Type} {l : List α} {i : ℕ} (h : i < l.length) :
    l.reverse[l.length - 1 - i]? = l[i]? := by
  rw [List.getElem?_reverse (by omega)]
  congr 1
  omega

theorem exists_head_delivered (hcount : 0 < count)
    (hfits : ∀ entry, s.bytesOf entry ≤ s.maxBatchBytes) {bucket : ℕ}
    (hbucket : bucket < (s.opened ids).length) (hne : (s.opened ids)[bucket] ≠ []) :
    ∃ bucket' ≥ bucket, ∃ entry rest read, (s.opened ids)[bucket']? = some (entry :: rest) ∧
      (s.delivered ids count)[bucket']? = some (entry :: read) := by
  -- in the order of the read the bucket has its place from the end
  have hplace : (s.opened ids).reverse[(s.opened ids).length - 1 - bucket]? =
      some (s.opened ids)[bucket] := by
    rw [getElem?_reverse_last hbucket, List.getElem?_eq_getElem hbucket]
  obtain ⟨j, hj, entry, rest, read, hopened, hread⟩ :=
    exists_head_read hcount (fun _ _ entry _ => hfits entry) hplace hne
  have hlt : j < (s.opened ids).reverse.length := (List.getElem?_eq_some_iff.mp hopened).1
  have hlength : (s.fittingAcross 0 (takeAcross count (s.opened ids).reverse)).length =
      (s.opened ids).reverse.length := by
    rw [length_fittingAcross, length_takeAcross]
  rw [← getElem?_reverse_last hlt, List.reverse_reverse] at hopened
  rw [← getElem?_reverse_last (hlength ▸ hlt), hlength] at hread
  refine ⟨_, ?_, entry, rest, read, hopened, hread⟩
  rw [List.length_reverse] at hlt ⊢
  omega

theorem exists_inRange (hvalid : s.timelineIndex.Valid)
    (hlength : ids.length = s.timelineIndex.timelines.length) (hcount : 0 < count)
    (hfits : ∀ t ∈ s.transactions, t.txn.rawTxnBytesLen ≤ s.maxBatchBytes)
    {bucket id : ℕ} {p : TxnPointer} (hholds : s.timelineIndex.Holds bucket id p)
    (hlt : ids.getD bucket 0 < id) :
    ∃ bucket', ∃ entry ∈ s.inRange ids (s.idsAfter ids count) bucket',
      bucket < bucket' ∨ bucket' = bucket ∧ entry.1 ≤ id := by
  obtain ⟨timeline, htimeline, hmem⟩ := hholds
  obtain ⟨hbucket, rfl⟩ := List.getElem?_eq_some_iff.mp htimeline
  have hids : bucket < ids.length := hlength ▸ hbucket
  have hopened : bucket < (s.opened ids).length := (length_opened hlength).symm ▸ hids
  have hzip : (s.opened ids)[bucket] = s.timelineIndex.timelines[bucket].pending ids[bucket] :=
    List.getElem_zipWith ..
  have hpending : (id, p) ∈ (s.opened ids)[bucket] := by
    rw [getD_eq_getElem hids] at hlt
    rw [hzip]
    exact List.mem_filter.mpr ⟨hmem, decide_eq_true hlt⟩
  obtain ⟨bucket', hge, entry, rest, read, hfirst, hread⟩ :=
    exists_head_delivered hcount (fun _ => bytesOf_le hfits) hopened (List.ne_nil_of_mem hpending)
  obtain ⟨hdelivered, heq⟩ := List.getElem?_eq_some_iff.mp hread
  refine ⟨bucket', entry, ?_, ?_⟩
  · rw [(inRange_idsAfter hvalid hlength hdelivered).1, heq]
    exact List.mem_cons_self
  · obtain hgt | rfl := Nat.lt_or_eq_of_le hge
    · exact Or.inl hgt
    · refine Or.inr ⟨rfl, ?_⟩
      rw [List.getElem?_eq_getElem hopened] at hfirst
      have hordered : OrderedEntries.Ordered (s.opened ids)[bucket] := by
        rw [hzip]
        exact (hvalid.timelines _ (List.getElem_mem _)).ordered.sublist (List.filter_sublist.map _)
      rw [Option.some.inj hfirst] at hordered hpending
      obtain heq | hmem := List.mem_cons.mp hpending
      · rw [← heq]
      · exact ((List.pairwise_cons.mp hordered).1 id (List.mem_map_of_mem hmem)).le

theorem Indexed.reads (h : s.Consistent world) (hunready : Unready world)
    (hlength : ids.length = s.timelineIndex.timelines.length) (hcount : 0 < count) :
    ∃ batch after, s.readTimeline ids count = some (batch, after) ∧
      s.ReadsTo ids count batch after := by
  refine ⟨_, s.idsAfter ids count,
    readTimeline_eq h.timelineIndex (h.readable hunready) hlength hcount, ?_⟩
  constructor
  case length_eq => exact length_idsAfter hlength
  case batch_eq => rw [delivered_eq h.timelineIndex hlength, ← List.map_reverse, List.flatMap_def]
  case ids_le => exact fun bucket => (idsAfter_getD h.timelineIndex hlength bucket).1
  case after_eq => exact fun bucket => (idsAfter_getD h.timelineIndex hlength bucket).2
  case count_le => exact (List.length_filterMap_le ..).trans length_delivered_le
  case bytes_le =>
    have hbytes : s.bytesAfter 0 (s.delivered ids count).reverse.flatten = _ :=
      bytesAfter_eq (Nat.zero_le _) _
    rw [Nat.zero_add] at hbytes
    rw [← hbytes, delivered, List.reverse_reverse]
    exact bytesAfter_fittingAcross_le (Nat.zero_le _)
  case goesOn =>
    intro hfits bucket id p hholds hlt
    exact exists_inRange h.timelineIndex hlength hcount hfits hholds hlt

end TransactionStore

end Anthemius.Mempool

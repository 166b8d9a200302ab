import Anthemius.MempoolIndexes

/-!
# What the timelines hold

Each bucket gives out its ids in increasing order and never again.
-/
namespace Anthemius.Mempool

/-! ## One timeline -/

namespace TimelineIndex

structure Valid (index : TimelineIndex) : Prop where
  ordered : OrderedEntries.Ordered index.timeline
  below : ∀ entry ∈ index.timeline, entry.1 < index.timelineId

/-- Later, there may be new entries under new ids, and old ones may be gone. -/
structure Advances (index later : TimelineIndex) : Prop where
  timelineId : index.timelineId ≤ later.timelineId
  old : ∀ entry ∈ later.timeline, entry.1 < index.timelineId → entry ∈ index.timeline

theorem Advances.refl (index : TimelineIndex) : index.Advances index :=
  ⟨Nat.le_refl _, fun _ h _ => h⟩

theorem Advances.trans {a b c : TimelineIndex} (hab : a.Advances b) (hbc : b.Advances c) :
    a.Advances c := by
  refine ⟨Nat.le_trans hab.timelineId hbc.timelineId, fun entry hentry hlt => ?_⟩
  exact hab.old entry (hbc.old entry hentry (Nat.lt_of_lt_of_le hlt hab.timelineId)) hlt

theorem Valid.new : TimelineIndex.new.Valid := ⟨.nil, fun _ h => absurd h List.not_mem_nil⟩

variable {index : TimelineIndex} {txn : TxnPointer} {id : ℕ} {index' : TimelineIndex}

theorem Valid.mem_insert (h : index.Valid) (hinsert : index.insert txn = some (id, index'))
    {entry : ℕ × TxnPointer} :
    entry ∈ index'.timeline ↔ entry = (id, txn) ∨ entry ∈ index.timeline := by
  obtain ⟨next, -, heq⟩ := Option.bind_eq_some_iff.mp hinsert
  cases heq
  have hfresh : index.timelineId ∉ index.timeline.map Prod.fst := by
    intro hmem
    obtain ⟨entry, hentry, heq⟩ := List.mem_map.mp hmem
    exact Nat.lt_irrefl _ (heq ▸ h.below entry hentry)
  rw [OrderedEntries.insert, (OrderedEntries.insertWith_perm hfresh).mem_iff, List.mem_cons]

theorem insert_id (hinsert : index.insert txn = some (id, index')) :
    id = index.timelineId ∧ index'.timelineId = index.timelineId + 1 := by
  obtain ⟨next, hnext, heq⟩ := Option.bind_eq_some_iff.mp hinsert
  cases heq
  exact ⟨rfl, checkedSucc_eq_some hnext⟩

theorem Valid.insert (h : index.Valid) (hinsert : index.insert txn = some (id, index')) :
    index'.Valid := by
  obtain ⟨rfl, hnext⟩ := insert_id hinsert
  refine ⟨?_, fun entry hentry => ?_⟩
  · obtain ⟨next, -, heq⟩ := Option.bind_eq_some_iff.mp hinsert
    cases heq
    exact h.ordered.insertWith
  · rw [hnext]
    obtain rfl | hentry := (h.mem_insert hinsert).mp hentry
    · exact Nat.lt_succ_self _
    · exact Nat.lt_succ_of_lt (h.below entry hentry)

theorem Valid.advances_insert (h : index.Valid) (hinsert : index.insert txn = some (id, index')) :
    index.Advances index' := by
  obtain ⟨rfl, hnext⟩ := insert_id hinsert
  refine ⟨by omega, fun entry hentry hlt => ?_⟩
  obtain rfl | hentry := (h.mem_insert hinsert).mp hentry
  · exact absurd hlt (Nat.lt_irrefl _)
  · exact hentry

theorem mem_remove {state : TimelineState} {entry : ℕ × TxnPointer} :
    entry ∈ (index.remove state).timeline ↔
      entry ∈ index.timeline ∧ state ≠ .ready entry.1 := by
  cases state with
  | ready timelineId =>
    rw [remove, List.mem_filter, decide_eq_true_eq]
    refine and_congr_right fun _ => not_congr ⟨fun heq => congrArg _ heq.symm, fun heq => ?_⟩
    exact (TimelineState.ready.inj heq).symm
  | notReady => exact ⟨fun h => ⟨h, TimelineState.noConfusion⟩, And.left⟩
  | nonQualified => exact ⟨fun h => ⟨h, TimelineState.noConfusion⟩, And.left⟩

theorem remove_timelineId {state : TimelineState} :
    (index.remove state).timelineId = index.timelineId := by
  cases state <;> rfl

theorem Valid.remove (h : index.Valid) (state : TimelineState) : (index.remove state).Valid := by
  refine ⟨?_, fun entry hentry => ?_⟩
  · cases state with
    | ready timelineId => exact h.ordered.sublist (List.filter_sublist.map _)
    | notReady => exact h.ordered
    | nonQualified => exact h.ordered
  · rw [remove_timelineId]
    exact h.below entry (mem_remove.mp hentry).1

theorem advances_remove (state : TimelineState) : index.Advances (index.remove state) :=
  ⟨Nat.le_of_eq remove_timelineId.symm, fun _ hentry _ => (mem_remove.mp hentry).1⟩

end TimelineIndex

/-! ## All buckets -/

namespace MultiBucketTimelineIndex

structure Valid (index : MultiBucketTimelineIndex) : Prop where
  length : index.timelines.length = index.bucketMins.length
  nonempty : index.bucketMins ≠ []
  timelines : ∀ timeline ∈ index.timelines, timeline.Valid

/-- The bucket has an entry under the id. -/
def Holds (index : MultiBucketTimelineIndex) (bucket id : ℕ) (txn : TxnPointer) : Prop :=
  ∃ timeline, index.timelines[bucket]? = some timeline ∧ (id, txn) ∈ timeline.timeline

structure Advances (index later : MultiBucketTimelineIndex) : Prop where
  bucketMins : later.bucketMins = index.bucketMins
  length : later.timelines.length = index.timelines.length
  timelines : ∀ (bucket : ℕ) (before after : TimelineIndex),
    index.timelines[bucket]? = some before → later.timelines[bucket]? = some after →
    before.Advances after

theorem Advances.refl (index : MultiBucketTimelineIndex) : index.Advances index := by
  refine ⟨rfl, rfl, fun bucket before after hbefore hafter => ?_⟩
  rw [hbefore] at hafter
  exact Option.some.inj hafter ▸ .refl before

theorem Advances.trans {a b c : MultiBucketTimelineIndex} (hab : a.Advances b)
    (hbc : b.Advances c) : a.Advances c := by
  refine ⟨hbc.bucketMins.trans hab.bucketMins, hbc.length.trans hab.length,
    fun bucket before after hbefore hafter => ?_⟩
  have hlt : bucket < b.timelines.length := by
    rw [hab.length]
    exact (List.getElem?_eq_some_iff.mp hbefore).1
  have hmiddle := List.getElem?_eq_getElem hlt
  exact (hab.timelines bucket _ _ hbefore hmiddle).trans (hbc.timelines bucket _ _ hmiddle hafter)

theorem new_eq {bucketMins : List ℕ} {index : MultiBucketTimelineIndex}
    (h : MultiBucketTimelineIndex.new bucketMins = .ok index) :
    bucketMins ≠ [] ∧ index = ⟨bucketMins.map fun _ => .new, bucketMins⟩ := by
  unfold MultiBucketTimelineIndex.new at h
  split at h
  next => cases h
  next hne =>
    split at h
    next => cases h
    next =>
      split at h
      next => cases h
      next =>
        rw [List.isEmpty_iff] at hne
        exact ⟨hne, (Except.ok.inj h).symm⟩

theorem Valid.new {bucketMins : List ℕ} {index : MultiBucketTimelineIndex}
    (h : MultiBucketTimelineIndex.new bucketMins = .ok index) : index.Valid := by
  obtain ⟨hne, rfl⟩ := new_eq h
  refine ⟨List.length_map _, hne, fun timeline htimeline => ?_⟩
  obtain ⟨_, -, rfl⟩ := List.mem_map.mp htimeline
  exact .new

theorem not_holds_new {bucketMins : List ℕ} {index : MultiBucketTimelineIndex}
    (h : MultiBucketTimelineIndex.new bucketMins = .ok index) {bucket id : ℕ} {txn : TxnPointer} :
    ¬ index.Holds bucket id txn := by
  obtain ⟨-, rfl⟩ := new_eq h
  rintro ⟨timeline, htimeline, hentry⟩
  obtain ⟨_, -, rfl⟩ := List.mem_map.mp (List.mem_of_getElem? htimeline)
  exact absurd hentry List.not_mem_nil

section Changes
variable {index : MultiBucketTimelineIndex} {score id : ℕ} {txn : TxnPointer}
  {index' : MultiBucketTimelineIndex} {state : TimelineState}

theorem Valid.getTimeline_lt (h : index.Valid) (score : ℕ) :
    index.getTimeline score < index.timelines.length := by
  have hpos : 0 < index.bucketMins.length := List.length_pos_of_ne_nil h.nonempty
  have hle : (index.bucketMins.filter (· ≤ score)).length ≤ index.bucketMins.length :=
    List.length_filter_le _ _
  rw [getTimeline, h.length]
  omega

theorem Valid.holds_unique (h : index.Valid) {bucket i : ℕ} {p q : TxnPointer}
    (hp : index.Holds bucket i p) (hq : index.Holds bucket i q) : p = q := by
  obtain ⟨timeline, htimeline, hp⟩ := hp
  obtain ⟨other, hother, hq⟩ := hq
  rw [htimeline] at hother
  cases hother
  have hnodup := (h.timelines timeline (List.mem_of_getElem? htimeline)).ordered.nodup
  exact congrArg Prod.snd (List.inj_on_of_nodup_map hnodup hp hq rfl)

theorem insert_eq (hinsert : index.insert score txn = some (id, index')) :
    ∃ timeline timeline', index.timelines[index.getTimeline score]? = some timeline ∧
      timeline.insert txn = some (id, timeline') ∧
      index' = { index with
        timelines := index.timelines.set (index.getTimeline score) timeline' } := by
  obtain ⟨timeline, htimeline, hrest⟩ := Option.bind_eq_some_iff.mp hinsert
  obtain ⟨⟨id', timeline'⟩, hinserted, heq⟩ := Option.bind_eq_some_iff.mp hrest
  cases heq
  exact ⟨timeline, timeline', htimeline, hinserted, rfl⟩

theorem Valid.insert (h : index.Valid) (hinsert : index.insert score txn = some (id, index')) :
    index'.Valid := by
  obtain ⟨timeline, timeline', htimeline, hinserted, rfl⟩ := insert_eq hinsert
  refine ⟨(List.length_set).trans h.length, h.nonempty, fun other hother => ?_⟩
  obtain hother | rfl := List.mem_or_eq_of_mem_set hother
  · exact h.timelines other hother
  · exact (h.timelines timeline (List.mem_of_getElem? htimeline)).insert hinserted

theorem Valid.holds_insert (h : index.Valid)
    (hinsert : index.insert score txn = some (id, index')) {bucket i : ℕ} {q : TxnPointer} :
    index'.Holds bucket i q ↔
      (bucket = index.getTimeline score ∧ i = id ∧ q = txn) ∨ index.Holds bucket i q := by
  obtain ⟨timeline, timeline', htimeline, hinserted, rfl⟩ := insert_eq hinsert
  have hvalid := h.timelines timeline (List.mem_of_getElem? htimeline)
  have hlt := h.getTimeline_lt score
  unfold Holds
  simp only [List.getElem?_set]
  by_cases hbucket : index.getTimeline score = bucket
  · subst hbucket
    simp only [if_true, hlt, Option.some.injEq, exists_eq_left', htimeline,
      hvalid.mem_insert hinserted, Prod.mk.injEq, true_and]
  · simp only [if_neg hbucket, Ne.symm hbucket, false_and, false_or]

theorem Valid.advances_insert (h : index.Valid)
    (hinsert : index.insert score txn = some (id, index')) : index.Advances index' := by
  obtain ⟨timeline, timeline', htimeline, hinserted, rfl⟩ := insert_eq hinsert
  refine ⟨rfl, List.length_set, fun bucket before after hbefore hafter => ?_⟩
  rw [List.getElem?_set] at hafter
  split at hafter
  next heq =>
    subst heq
    rw [htimeline] at hbefore
    cases hbefore
    rw [if_pos (h.getTimeline_lt score)] at hafter
    cases hafter
    exact (h.timelines _ (List.mem_of_getElem? htimeline)).advances_insert hinserted
  next =>
    rw [hbefore] at hafter
    exact Option.some.inj hafter ▸ .refl before

theorem Valid.remove (h : index.Valid) : (index.remove score state).Valid := by
  refine ⟨(List.length_modify ..).trans h.length, h.nonempty, fun other hother => ?_⟩
  obtain ⟨bucket, hbucket⟩ := List.mem_iff_getElem?.mp hother
  rw [MultiBucketTimelineIndex.remove, List.getElem?_modify] at hbucket
  obtain ⟨timeline, htimeline, rfl⟩ := Option.map_eq_some_iff.mp hbucket
  have hvalid := h.timelines timeline (List.mem_of_getElem? htimeline)
  split
  · exact hvalid.remove state
  · exact hvalid

theorem holds_remove {bucket i : ℕ} {q : TxnPointer} :
    (index.remove score state).Holds bucket i q ↔
      index.Holds bucket i q ∧ ¬ (bucket = index.getTimeline score ∧ state = .ready i) := by
  unfold Holds
  simp only [MultiBucketTimelineIndex.remove, List.getElem?_modify, Option.map_eq_map,
    Option.map_eq_some_iff]
  constructor
  · rintro ⟨_, ⟨timeline, htimeline, rfl⟩, hentry⟩
    split at hentry
    next heq =>
      obtain ⟨hentry, hstate⟩ := TimelineIndex.mem_remove.mp hentry
      exact ⟨⟨timeline, htimeline, hentry⟩, fun hboth => hstate hboth.2⟩
    next hne => exact ⟨⟨timeline, htimeline, hentry⟩, fun hboth => hne hboth.1.symm⟩
  · rintro ⟨⟨timeline, htimeline, hentry⟩, hnot⟩
    refine ⟨_, ⟨timeline, htimeline, rfl⟩, ?_⟩
    split
    next heq => exact TimelineIndex.mem_remove.mpr ⟨hentry, fun h => hnot ⟨heq.symm, h⟩⟩
    next => exact hentry

theorem advances_remove : index.Advances (index.remove score state) := by
  refine ⟨rfl, List.length_modify .., fun bucket before after hbefore hafter => ?_⟩
  rw [MultiBucketTimelineIndex.remove, List.getElem?_modify, hbefore] at hafter
  obtain rfl := Option.some.inj hafter
  split
  · exact TimelineIndex.advances_remove state
  · exact .refl before

end Changes

end MultiBucketTimelineIndex

end Anthemius.Mempool

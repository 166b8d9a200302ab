import Anthemius.MempoolTimelines
import Anthemius.TransactionStores
import Mathlib.Algebra.BigOperators.Group.List.Basic

/-!
# Consistency of the mempool indexes

The indexes are compared with a list of transactions. Between two calls this is the list of the
stored transactions; while transactions are removed, it is the list of those whose entries are
still there.
-/
namespace Anthemius.Mempool

section Lists
variable {P : Type} {l : List (MempoolTransaction P)} {t : MempoolTransaction P}

/-- One transaction for an account and a sequence number. -/
abbrev Unique (l : List (MempoolTransaction P)) : Prop :=
  (l.map MempoolTransaction.pointer).Nodup

/-- The list without the transaction of a pointer. -/
abbrev without (l : List (MempoolTransaction P)) (p : TxnPointer) : List (MempoolTransaction P) :=
  l.filter (·.pointer ≠ p)

theorem mem_without {p : TxnPointer} : t ∈ without l p ↔ t ∈ l ∧ t.pointer ≠ p := by
  rw [List.mem_filter, decide_eq_true_eq]

theorem Unique.eq {t' : MempoolTransaction P} (h : Unique l) (ht : t ∈ l) (ht' : t' ∈ l)
    (hpointer : t.pointer = t'.pointer) : t = t' :=
  List.inj_on_of_nodup_map h ht ht' hpointer

theorem Unique.length_le {l' : List (MempoolTransaction P)} (h : Unique l)
    (hsub : ∀ t ∈ l, ∃ a ∈ l', a.pointer = t.pointer) : l.length ≤ l'.length := by
  have hpointers : l.map (·.pointer) ⊆ l'.map (·.pointer) := by
    intro p hp
    obtain ⟨t, ht, rfl⟩ := List.mem_map.mp hp
    obtain ⟨a, ha, heq⟩ := hsub t ht
    exact List.mem_map.mpr ⟨a, ha, heq⟩
  simpa using (List.subperm_of_subset h hpointers).length_le

theorem Unique.without (h : Unique l) (p : TxnPointer) : Unique (without l p) :=
  h.sublist (List.filter_sublist.map _)

theorem Unique.exists_mem_without {K : Type} {key : MempoolTransaction P → K} (h : Unique l)
    (ht : t ∈ l) (hkey : ∀ a ∈ l, key a = key t → a.pointer = t.pointer) {k : K} :
    (∃ a ∈ Mempool.without l t.pointer, key a = k) ↔ k ≠ key t ∧ ∃ a ∈ l, key a = k := by
  constructor
  · rintro ⟨a, ha, rfl⟩
    obtain ⟨ha, hne⟩ := mem_without.mp ha
    exact ⟨fun heq => hne (hkey a ha heq), a, ha, rfl⟩
  · rintro ⟨hne, a, ha, rfl⟩
    refine ⟨a, mem_without.mpr ⟨ha, fun heq => hne ?_⟩, rfl⟩
    rw [h.eq ha ht heq]

theorem without_of_not_mem {p : TxnPointer} (h : ∀ a ∈ l, a.pointer ≠ p) : without l p = l :=
  List.filter_eq_self.mpr fun a ha => decide_eq_true (h a ha)

theorem Unique.sum_without (h : Unique l) (ht : t ∈ l) (f : MempoolTransaction P → ℕ) :
    (l.map f).sum = f t + ((Mempool.without l t.pointer).map f).sum := by
  induction l with
  | nil => exact absurd ht List.not_mem_nil
  | cons a l ih =>
    obtain ⟨hhead, hrest⟩ := List.nodup_cons.mp h
    obtain rfl | ht' := List.mem_cons.mp ht
    · have hsame : Mempool.without l t.pointer = l :=
        without_of_not_mem fun b hb heq => hhead (List.mem_map.mpr ⟨b, hb, heq⟩)
      have hfilter : Mempool.without (t :: l) t.pointer = Mempool.without l t.pointer :=
        List.filter_cons_of_neg (by simp)
      rw [hfilter, hsame, List.map_cons, List.sum_cons]
    · have hne : a.pointer ≠ t.pointer :=
        fun heq => hhead (List.mem_map.mpr ⟨t, ht', heq.symm⟩)
      have hfilter : Mempool.without (a :: l) t.pointer = a :: Mempool.without l t.pointer :=
        List.filter_cons_of_pos (decide_eq_true hne)
      rw [hfilter, List.map_cons, List.sum_cons, ih hrest ht', List.map_cons, List.sum_cons]
      omega

/-- The list with another state for the transaction of a pointer. -/
abbrev withStateAt (l : List (MempoolTransaction P)) (p : TxnPointer) (state : TimelineState) :
    List (MempoolTransaction P) :=
  l.map fun a => if a.pointer = p then a.withState state else a

theorem map_withStateAt {K : Type} (key : MempoolTransaction P → K)
    (hkey : ∀ a state, key (a.withState state) = key a) (p : TxnPointer) (state : TimelineState) :
    (withStateAt l p state).map key = l.map key := by
  rw [List.map_map]
  refine List.map_congr_left fun a _ => ?_
  rw [Function.comp_apply]
  split
  · exact hkey a state
  · rfl

theorem Unique.withStateAt (h : Unique l) (p : TxnPointer) (state : TimelineState) :
    Unique (withStateAt l p state) := by
  rw [Unique, map_withStateAt _ fun _ _ => rfl]
  exact h

theorem exists_mem_withStateAt {K : Type} (key : MempoolTransaction P → K)
    (hkey : ∀ a state, key (a.withState state) = key a) {p : TxnPointer} {state : TimelineState}
    {k : K} : (∃ a ∈ withStateAt l p state, key a = k) ↔ ∃ a ∈ l, key a = k := by
  rw [← List.mem_map, ← List.mem_map, map_withStateAt key hkey]

theorem mem_withStateAt {p : TxnPointer} {state : TimelineState} :
    t ∈ withStateAt l p state ↔ (t ∈ l ∧ t.pointer ≠ p) ∨
      ∃ a ∈ l, a.pointer = p ∧ a.withState state = t := by
  rw [List.mem_map]
  constructor
  · rintro ⟨a, ha, rfl⟩
    split
    next heq => exact Or.inr ⟨a, ha, heq, rfl⟩
    next hne => exact Or.inl ⟨ha, hne⟩
  · rintro (⟨ht, hne⟩ | ⟨a, ha, heq, rfl⟩)
    · exact ⟨t, ht, if_neg hne⟩
    · exact ⟨a, ha, if_pos heq⟩

theorem Unique.withStateAt_self (h : Unique l) (ht : t ∈ l) :
    Mempool.withStateAt l t.pointer t.timelineState = l := by
  refine (List.map_congr_left fun a ha => ?_).trans (List.map_id l)
  split
  next heq =>
    rw [h.eq ha ht heq]
    rfl
  next => rfl

end Lists

/-- Different transactions among those that are inserted have different hashes. -/
def Distinct {P : Type} (world : MempoolTransaction P → Prop) : Prop :=
  ∀ t t', world t → world t' → t.getCommittedHash = t'.getCommittedHash → t.txn = t'.txn

theorem Distinct.pointer_eq {P : Type} {world : MempoolTransaction P → Prop} (h : Distinct world)
    {t t' : MempoolTransaction P} (ht : ∃ a, world a ∧ a.txn = t.txn)
    (ht' : ∃ a, world a ∧ a.txn = t'.txn) (hhash : t.getCommittedHash = t'.getCommittedHash) :
    t.pointer = t'.pointer := by
  obtain ⟨a, ha, hat⟩ := ht
  obtain ⟨a', ha', hat'⟩ := ht'
  have hsame : t.txn = t'.txn := by
    rw [← hat, ← hat']
    refine h a a' ha ha' ?_
    rw [MempoolTransaction.getCommittedHash, MempoolTransaction.getCommittedHash, hat, hat']
    exact hhash
  exact congrArg (fun txn => (txn.sender, txn.sequenceNumber)) hsame

/-- What is inserted is not in the timeline. -/
def Unready {P : Type} (world : MempoolTransaction P → Prop) : Prop :=
  ∀ t id, world t → t.timelineState ≠ .ready id

/-! ## The indexes of a list -/

namespace TransactionStore
variable {P : Type}

/-- The indexes are those of the transactions in the list. The two indexes of expiration times may
already lack some keys. -/
structure Indexed (s : TransactionStore P) (world : MempoolTransaction P → Prop)
    (l : List (MempoolTransaction P)) (keepSystem keepExpiration : TTLOrderingKey → Prop) :
    Prop where
  unique : Unique l
  inserted : ∀ t ∈ l, ∃ a, world a ∧ a.txn = t.txn
  systemTtl : ∀ key, key ∈ s.systemTtlIndex ↔ keepSystem key ∧ ∃ t ∈ l, t.systemTtlKey = key
  systemTtlNodup : s.systemTtlIndex.Nodup
  expirationTime : ∀ key, key ∈ s.expirationTimeIndex ↔
    keepExpiration key ∧ ∃ t ∈ l, t.expirationTimeKey = key
  expirationTimeNodup : s.expirationTimeIndex.Nodup
  hash : Distinct world → ∀ hash p, s.hashIndex hash = some p ↔
    ∃ t ∈ l, t.getCommittedHash = hash ∧ t.pointer = p
  priority : ∀ key ∈ s.priorityIndex, ∃ t ∈ l, t.queueKey = key
  timelineIndex : s.timelineIndex.Valid
  timeline : Unready world → ∀ bucket id p, s.timelineIndex.Holds bucket id p ↔
    ∃ t ∈ l, t.pointer = p ∧ t.timelineState = .ready id ∧
      s.timelineIndex.getTimeline t.rankingScore = bucket
  parkingLotIndex : s.parkingLotIndex.Valid
  parked : ∀ p, s.parkingLotIndex.Parked p → ∃ t ∈ l, t.pointer = p
  size : s.sizeBytes = (l.map (·.getEstimatedBytes s.overheadBytes)).sum

abbrev Consistent (s : TransactionStore P) (world : MempoolTransaction P → Prop) : Prop :=
  s.Indexed world s.transactions (fun _ => True) fun _ => True

variable {s : TransactionStore P} {world : MempoolTransaction P → Prop}
  {l : List (MempoolTransaction P)} {keepSystem keepExpiration : TTLOrderingKey → Prop}
  {t : MempoolTransaction P}

theorem new_timelineIndex {config : MempoolConfig} {overheadBytes : ℕ}
    (h : TransactionStore.new config overheadBytes = some s) :
    MultiBucketTimelineIndex.new config.broadcastBuckets = .ok s.timelineIndex := by
  obtain ⟨timelineIndex, htimeline, heq⟩ := Option.bind_eq_some_iff.mp h
  cases heq
  cases hnew : MultiBucketTimelineIndex.new config.broadcastBuckets with
  | ok index =>
    rw [hnew] at htimeline
    exact congrArg _ (Option.some.inj htimeline)
  | error e =>
    rw [hnew] at htimeline
    cases htimeline

theorem Consistent.new {config : MempoolConfig} {overheadBytes : ℕ}
    (h : TransactionStore.new config overheadBytes = some s) : s.Consistent world := by
  have hok := new_timelineIndex h
  obtain ⟨timelineIndex, -, heq⟩ := Option.bind_eq_some_iff.mp h
  cases heq
  constructor
  case unique => exact .nil
  case timelineIndex => exact .new hok
  case timeline =>
    intro _ bucket id p
    refine ⟨fun hholds => absurd hholds (MultiBucketTimelineIndex.not_holds_new hok), ?_⟩
    rintro ⟨t, ht, -⟩
    exact absurd ht List.not_mem_nil
  case parkingLotIndex => exact .new
  case parked => exact fun p hp => absurd hp ParkingLotIndex.not_parked_new
  all_goals simp

theorem Indexed.withMaps (h : s.Indexed world l keepSystem keepExpiration)
    (transactions : List (MempoolTransaction P)) (numbers : AccountAddress → Option ℕ) :
    Indexed { s with transactions := transactions, sequenceNumbers := numbers } world l keepSystem
      keepExpiration :=
  ⟨h.unique, h.inserted, h.systemTtl, h.systemTtlNodup, h.expirationTime, h.expirationTimeNodup,
    h.hash, h.priority, h.timelineIndex, h.timeline, h.parkingLotIndex, h.parked, h.size⟩

theorem Indexed.indexRemove (h : s.Indexed world l keepSystem keepExpiration)
    (ht : t ∈ l) :
    (s.indexRemove t).Indexed world (without l t.pointer) keepSystem keepExpiration where
  unique := h.unique.without _
  inserted a ha := h.inserted a (mem_without.mp ha).1
  systemTtl key := by
    have hkey : ∀ a ∈ l, a.systemTtlKey = t.systemTtlKey → a.pointer = t.pointer :=
      fun a _ heq => congrArg TTLOrderingKey.pointer heq
    change key ∈ s.systemTtlIndex.filter (· ≠ t.systemTtlKey) ↔ _
    rw [h.unique.exists_mem_without ht hkey, List.mem_filter, decide_eq_true_eq, h.systemTtl,
      and_assoc, and_comm (a := key ≠ _)]
  systemTtlNodup := h.systemTtlNodup.filter _
  expirationTime key := by
    have hkey : ∀ a ∈ l, a.expirationTimeKey = t.expirationTimeKey → a.pointer = t.pointer :=
      fun a _ heq => congrArg TTLOrderingKey.pointer heq
    change key ∈ s.expirationTimeIndex.filter (· ≠ t.expirationTimeKey) ↔ _
    rw [h.unique.exists_mem_without ht hkey, List.mem_filter, decide_eq_true_eq, h.expirationTime,
      and_assoc, and_comm (a := key ≠ _)]
  expirationTimeNodup := h.expirationTimeNodup.filter _
  hash hworld hash p := by
    have hkey : ∀ a ∈ l, a.getCommittedHash = t.getCommittedHash → a.pointer = t.pointer :=
      fun a ha => hworld.pointer_eq (h.inserted a ha) (h.inserted t ht)
    change Function.update s.hashIndex t.getCommittedHash none hash = some p ↔ _
    rw [Function.update_apply]
    split
    next heq =>
      subst heq
      refine ⟨fun hnone => absurd hnone (by simp), ?_⟩
      rintro ⟨a, ha, heq, -⟩
      obtain ⟨ha, hne⟩ := mem_without.mp ha
      exact absurd (hkey a ha heq) hne
    next hne =>
      rw [h.hash hworld]
      constructor
      · rintro ⟨a, ha, rfl, rfl⟩
        refine ⟨a, mem_without.mpr ⟨ha, fun heq => hne ?_⟩, rfl, rfl⟩
        rw [h.unique.eq ha ht heq]
      · rintro ⟨a, ha, hrest⟩
        exact ⟨a, (mem_without.mp ha).1, hrest⟩
  priority key hkey := by
    have hpointer : ∀ a ∈ l, a.queueKey = t.queueKey → a.pointer = t.pointer :=
      fun a _ heq => congrArg (fun k : OrderedQueueKey => (k.address, k.sequenceNumber)) heq
    obtain ⟨hmem, hne⟩ := List.mem_filter.mp hkey
    exact (h.unique.exists_mem_without ht hpointer).mpr ⟨of_decide_eq_true hne, h.priority key hmem⟩
  timelineIndex := h.timelineIndex.remove
  timeline hworld bucket id p := by
    change (s.timelineIndex.remove t.rankingScore t.timelineState).Holds bucket id p ↔ _
    rw [MultiBucketTimelineIndex.holds_remove, h.timeline hworld]
    constructor
    · rintro ⟨⟨a, ha, rfl, hstate, hbucket⟩, hnot⟩
      refine ⟨a, mem_without.mpr ⟨ha, fun heq => hnot ?_⟩, rfl, hstate, hbucket⟩
      obtain rfl := h.unique.eq ha ht heq
      exact ⟨hbucket.symm, hstate⟩
    · rintro ⟨a, ha, rfl, hstate, hbucket⟩
      obtain ⟨ha, hne⟩ := mem_without.mp ha
      refine ⟨⟨a, ha, rfl, hstate, hbucket⟩, ?_⟩
      rintro ⟨hsame, htstate⟩
      -- the other transaction would be held under the same id of the same bucket
      have hholds := (h.timeline hworld bucket id a.pointer).mpr ⟨a, ha, rfl, hstate, hbucket⟩
      have hholds' := (h.timeline hworld bucket id t.pointer).mpr ⟨t, ht, rfl, htstate, hsame.symm⟩
      exact hne (h.timelineIndex.holds_unique hholds hholds')
  parkingLotIndex := h.parkingLotIndex.remove
  parked p hp := by
    obtain ⟨hne, hparked⟩ := h.parkingLotIndex.parked_remove.mp hp
    obtain ⟨a, ha, rfl⟩ := h.parked p hparked
    exact ⟨a, mem_without.mpr ⟨ha, hne⟩, rfl⟩
  size := by
    have hsum := h.unique.sum_without ht (·.getEstimatedBytes s.overheadBytes)
    change s.sizeBytes - t.getEstimatedBytes s.overheadBytes = _
    rw [h.size, hsum]
    exact Nat.add_sub_cancel_left ..

theorem Indexed.withQueues (h : s.Indexed world l keepSystem keepExpiration)
    {priority : List OrderedQueueKey} {lot : ParkingLotIndex} (hlot : lot.Valid)
    (hpriority : ∀ key ∈ priority, key ∈ s.priorityIndex ∨ ∃ t ∈ l, t.queueKey = key)
    (hparked : ∀ p, lot.Parked p → s.parkingLotIndex.Parked p ∨ ∃ t ∈ l, t.pointer = p) :
    Indexed { s with priorityIndex := priority, parkingLotIndex := lot } world l keepSystem
      keepExpiration :=
  ⟨h.unique, h.inserted, h.systemTtl, h.systemTtlNodup, h.expirationTime, h.expirationTimeNodup,
    h.hash, fun key hkey => (hpriority key hkey).elim (h.priority key) id, h.timelineIndex,
    h.timeline, hlot, fun p hp => (hparked p hp).elim (h.parked p) id, h.size⟩

theorem Indexed.withTimeline (h : s.Indexed world l keepSystem keepExpiration)
    {index : MultiBucketTimelineIndex} {p : TxnPointer} {state : TimelineState}
    (hindex : index.Valid)
    (htimeline : Unready world → ∀ bucket id q, index.Holds bucket id q ↔
      ∃ t ∈ withStateAt l p state, t.pointer = q ∧ t.timelineState = .ready id ∧
        index.getTimeline t.rankingScore = bucket) :
    Indexed { s with timelineIndex := index } world (withStateAt l p state) keepSystem
      keepExpiration where
  unique := h.unique.withStateAt p state
  inserted t ht := by
    have hmem : t.txn ∈ (withStateAt l p state).map (·.txn) := List.mem_map_of_mem ht
    rw [map_withStateAt _ fun _ _ => rfl] at hmem
    obtain ⟨a, ha, heq⟩ := List.mem_map.mp hmem
    rw [← heq]
    exact h.inserted a ha
  systemTtl key := by
    rw [exists_mem_withStateAt _ fun _ _ => rfl]
    exact h.systemTtl key
  systemTtlNodup := h.systemTtlNodup
  expirationTime key := by
    rw [exists_mem_withStateAt _ fun _ _ => rfl]
    exact h.expirationTime key
  expirationTimeNodup := h.expirationTimeNodup
  hash hworld hash q := by
    have hsame : (∃ t ∈ withStateAt l p state, (t.getCommittedHash, t.pointer) = (hash, q)) ↔
        ∃ t ∈ l, (t.getCommittedHash, t.pointer) = (hash, q) :=
      exists_mem_withStateAt (fun t => (t.getCommittedHash, t.pointer)) fun _ _ => rfl
    simp only [Prod.mk.injEq] at hsame
    rw [hsame]
    exact h.hash hworld hash q
  priority key hkey := by
    rw [exists_mem_withStateAt _ fun _ _ => rfl]
    exact h.priority key hkey
  timelineIndex := hindex
  timeline := htimeline
  parkingLotIndex := h.parkingLotIndex
  parked q hq := by
    rw [exists_mem_withStateAt _ fun _ _ => rfl]
    exact h.parked q hq
  size := by
    rw [map_withStateAt _ fun _ _ => rfl]
    exact h.size

theorem Indexed.length_systemTtlIndex (h : s.Indexed world l (fun _ => True) keepExpiration) :
    s.systemTtlIndex.length = l.length := by
  have hnodup : (l.map (·.systemTtlKey)).Nodup := by
    refine List.Nodup.of_map TTLOrderingKey.pointer ?_
    rw [List.map_map]
    exact h.unique
  have hperm : s.systemTtlIndex.Perm (l.map (·.systemTtlKey)) := by
    refine (List.perm_ext_iff_of_nodup h.systemTtlNodup hnodup).mpr fun key => ?_
    rw [h.systemTtl, true_and, List.mem_map]
  rw [hperm.length_eq, List.length_map]

/-! ## The steps of the calls -/

theorem Indexed.store (h : s.Indexed world l keepSystem keepExpiration) (ht : world t)
    (hsystem : keepSystem t.systemTtlKey) (hexpiration : keepExpiration t.expirationTimeKey)
    (hfresh : ∀ a ∈ l, a.pointer ≠ t.pointer) :
    (s.store t).Indexed world (t :: l) keepSystem keepExpiration where
  unique := by
    refine List.nodup_cons.mpr ⟨fun hmem => ?_, h.unique⟩
    obtain ⟨a, ha, heq⟩ := List.mem_map.mp hmem
    exact hfresh a ha heq
  inserted a ha := by
    obtain rfl | ha := List.mem_cons.mp ha
    · exact ⟨a, ht, rfl⟩
    · exact h.inserted a ha
  systemTtl key := by
    change key ∈ s.systemTtlIndex.insert t.systemTtlKey ↔ _
    rw [List.mem_insert_iff, h.systemTtl, List.exists_mem_cons_iff]
    grind
  systemTtlNodup := h.systemTtlNodup.insert
  expirationTime key := by
    change key ∈ s.expirationTimeIndex.insert t.expirationTimeKey ↔ _
    rw [List.mem_insert_iff, h.expirationTime, List.exists_mem_cons_iff]
    grind
  expirationTimeNodup := h.expirationTimeNodup.insert
  hash hworld hash p := by
    change Function.update s.hashIndex t.getCommittedHash (some t.pointer) hash = some p ↔ _
    rw [Function.update_apply, List.exists_mem_cons_iff]
    split
    next heq =>
      subst heq
      refine ⟨fun hp => Or.inl ⟨rfl, Option.some.inj hp⟩, ?_⟩
      rintro (⟨-, rfl⟩ | ⟨a, ha, heq, rfl⟩)
      · rfl
      · exact absurd (hworld.pointer_eq (h.inserted a ha) ⟨t, ht, rfl⟩ heq) (hfresh a ha)
    next hne =>
      rw [h.hash hworld]
      exact ⟨Or.inr, fun hor => hor.resolve_left fun heq => hne heq.1.symm⟩
  priority key hkey := (List.exists_mem_cons_iff _ _ _).mpr (Or.inr (h.priority key hkey))
  timelineIndex := h.timelineIndex
  timeline hworld bucket id p := by
    change s.timelineIndex.Holds bucket id p ↔ _
    rw [h.timeline hworld, List.exists_mem_cons_iff]
    exact ⟨Or.inr, fun hor => hor.resolve_left fun hself => hworld t id ht hself.2.1⟩
  parkingLotIndex := h.parkingLotIndex
  parked p hp := (List.exists_mem_cons_iff _ _ _).mpr (Or.inr (h.parked p hp))
  size := by
    change s.sizeBytes + t.getEstimatedBytes s.overheadBytes =
      ((t :: l).map (·.getEstimatedBytes s.overheadBytes)).sum
    rw [h.size, List.map_cons, List.sum_cons, Nat.add_comm]

theorem Indexed.park (h : s.Indexed world l keepSystem keepExpiration)
    (ht : ∃ a ∈ l, a.pointer = t.pointer) :
    (s.park t).Indexed world l keepSystem keepExpiration := by
  unfold TransactionStore.park
  split
  next => exact h
  next =>
    refine h.withQueues h.parkingLotIndex.insert (fun key hkey => Or.inl hkey) fun p hp => ?_
    obtain rfl | hp := h.parkingLotIndex.parked_insert.mp hp
    · exact Or.inr ht
    · exact Or.inl hp

theorem Indexed.timelineInsert {s' : TransactionStore P}
    (h : s.Indexed world s.transactions keepSystem keepExpiration) (ht : t ∈ s.transactions)
    (hstate : t.timelineState = .notReady) (hs : s.timelineInsert t = some s') :
    s'.Indexed world s'.transactions keepSystem keepExpiration := by
  obtain ⟨⟨id, index⟩, hinsert, heq⟩ := Option.bind_eq_some_iff.mp hs
  cases heq
  refine (h.withTimeline (h.timelineIndex.insert hinsert) ?_).withMaps _ _
  have hbuckets := (h.timelineIndex.advances_insert hinsert).bucketMins
  have hbucket : ∀ score, index.getTimeline score = s.timelineIndex.getTimeline score := by
    intro score
    rw [MultiBucketTimelineIndex.getTimeline, hbuckets]
    rfl
  intro hworld bucket i q
  rw [h.timelineIndex.holds_insert hinsert, h.timeline hworld]
  simp only [hbucket, mem_withStateAt]
  constructor
  · rintro (⟨rfl, rfl, rfl⟩ | ⟨a, ha, rfl, ha', rfl⟩)
    · exact ⟨_, Or.inr ⟨t, ht, rfl, rfl⟩, rfl, rfl, rfl⟩
    · refine ⟨a, Or.inl ⟨ha, fun heq => ?_⟩, rfl, ha', rfl⟩
      rw [h.unique.eq ha ht heq, hstate] at ha'
      cases ha'
  · rintro ⟨a, ⟨ha, -⟩ | ⟨b, hb, heq, rfl⟩, rfl, ha', rfl⟩
    · exact Or.inr ⟨a, ha, rfl, ha', rfl⟩
    · obtain rfl := h.unique.eq hb ht heq
      exact Or.inl ⟨rfl, (TimelineState.ready.inj ha').symm, rfl⟩

theorem Indexed.promote {s' : TransactionStore P}
    (h : s.Indexed world s.transactions keepSystem keepExpiration) (ht : t ∈ s.transactions)
    (hs : s.promote t = some s') :
    s'.Indexed world s'.transactions keepSystem keepExpiration := by
  obtain ⟨broadcast, hbroadcast, rfl⟩ := Option.map_eq_some_iff.mp hs
  have hqueued : Indexed { s with priorityIndex := s.priorityIndex.insert t.queueKey } world
      s.transactions keepSystem keepExpiration := by
    refine h.withQueues h.parkingLotIndex (fun key hkey => ?_) fun p hp => Or.inl hp
    obtain rfl | hkey := List.mem_insert_iff.mp hkey
    · exact Or.inr ⟨t, ht, rfl⟩
    · exact Or.inl hkey
  have hindexed : broadcast.Indexed world broadcast.transactions keepSystem keepExpiration := by
    split at hbroadcast
    next hstate => exact hqueued.timelineInsert ht hstate hbroadcast
    next =>
      cases hbroadcast
      exact hqueued
  refine hindexed.withQueues hindexed.parkingLotIndex.remove (fun key hkey => Or.inl hkey)
    fun p hp => Or.inl ?_
  exact (hindexed.parkingLotIndex.parked_remove.mp hp).2

theorem Indexed.demote (h : s.Indexed world s.transactions keepSystem keepExpiration)
    (ht : t ∈ s.transactions) :
    (s.demote t).Indexed world (s.demote t).transactions keepSystem keepExpiration := by
  have hparked : ∀ p, (s.parkingLotIndex.insert t.pointer).Parked p →
      s.parkingLotIndex.Parked p ∨ ∃ a ∈ s.transactions, a.pointer = p := by
    intro p hp
    obtain rfl | hp := h.parkingLotIndex.parked_insert.mp hp
    · exact Or.inr ⟨t, ht, rfl⟩
    · exact Or.inl hp
  have hlot : (s.parkingLotIndex.insert t.pointer).Valid := h.parkingLotIndex.insert
  have hqueues := h.withQueues hlot
    (fun key (hkey : key ∈ s.priorityIndex.filter (· ≠ t.queueKey)) =>
      Or.inl (List.mem_of_mem_filter hkey)) hparked
  refine (hqueues.withTimeline h.timelineIndex.remove ?_).withMaps _ _
  intro hworld bucket id q
  rw [MultiBucketTimelineIndex.holds_remove, h.timeline hworld]
  simp only [mem_withStateAt]
  constructor
  · rintro ⟨⟨a, ha, rfl, hstate, rfl⟩, hnot⟩
    refine ⟨a, Or.inl ⟨ha, fun heq => hnot ?_⟩, rfl, hstate, rfl⟩
    obtain rfl := h.unique.eq ha ht heq
    exact ⟨rfl, hstate⟩
  · rintro ⟨a, ⟨ha, hne⟩ | ⟨b, hb, -, rfl⟩, rfl, hstate, rfl⟩
    · refine ⟨⟨a, ha, rfl, hstate, rfl⟩, ?_⟩
      rintro ⟨hbucket, htstate⟩
      have hholds := (h.timeline hworld _ id a.pointer).mpr ⟨a, ha, rfl, hstate, rfl⟩
      have hholds' := (h.timeline hworld _ id t.pointer).mpr ⟨t, ht, rfl, htstate, hbucket.symm⟩
      exact hne (h.timelineIndex.holds_unique hholds hholds')
    · exact absurd hstate (t.timelineState.demoted_ne_ready id)

theorem Indexed.discard (h : s.Indexed world s.transactions keepSystem keepExpiration)
    (ht : t ∈ s.transactions) :
    (s.discard t).Indexed world (s.discard t).transactions keepSystem keepExpiration :=
  (h.withMaps _ s.sequenceNumbers).indexRemove ht

theorem Indexed.foldl_indexRemove {removed : List (MempoolTransaction P)}
    (h : s.Indexed world l keepSystem keepExpiration)
    (hremoved : ∀ t ∈ removed, t ∈ l) (hunique : Unique removed) :
    (removed.foldl TransactionStore.indexRemove s).Indexed world
      (l.filter (·.pointer ∉ removed.map (·.pointer))) keepSystem keepExpiration := by
  induction removed generalizing s l with
  | nil =>
    have hall : l.filter (·.pointer ∉ ([] : List (MempoolTransaction P)).map (·.pointer)) = l :=
      List.filter_eq_self.mpr fun a _ => decide_eq_true List.not_mem_nil
    rw [hall]
    exact h
  | cons t removed ih =>
    obtain ⟨hhead, hrest⟩ := List.nodup_cons.mp hunique
    have hleft : ∀ a ∈ removed, a ∈ without l t.pointer := by
      intro a ha
      refine mem_without.mpr ⟨hremoved a (List.mem_cons_of_mem t ha), fun heq => hhead ?_⟩
      exact List.mem_map.mpr ⟨a, ha, heq⟩
    have hfold := ih (h.indexRemove (hremoved t List.mem_cons_self)) hleft hrest
    rw [List.filter_filter] at hfold
    have hsame : (fun a : MempoolTransaction P => decide (a.pointer ∉ removed.map (·.pointer)) &&
        decide (a.pointer ≠ t.pointer)) =
        fun a => decide (a.pointer ∉ (t :: removed).map (·.pointer)) := by
      funext a
      rw [List.map_cons, ← Bool.decide_and]
      exact decide_eq_decide.mpr (by rw [List.mem_cons, not_or, and_comm])
    rw [hsame] at hfold
    exact hfold

theorem foldl_indexRemove_transactions (removed : List (MempoolTransaction P))
    (s : TransactionStore P) :
    (removed.foldl TransactionStore.indexRemove s).transactions = s.transactions := by
  induction removed generalizing s with
  | nil => rfl
  | cons t removed ih => exact ih (s.indexRemove t)

theorem mem_committed {address : AccountAddress} {sequenceNumber : ℕ} {t : MempoolTransaction P} :
    t ∈ (s.accountTransactions address).filter (·.sequenceNumber < sequenceNumber) ↔
      t ∈ s.transactions ∧ t.getSender = address ∧ t.sequenceNumber < sequenceNumber := by
  simp only [accountTransactions, List.mem_filter, decide_eq_true_eq, and_assoc]

theorem Indexed.clean (h : s.Indexed world s.transactions keepSystem keepExpiration)
    (address : AccountAddress) (sequenceNumber : ℕ) :
    (s.cleanCommittedTransactions address sequenceNumber).Indexed world
      (s.cleanCommittedTransactions address sequenceNumber).transactions keepSystem
      keepExpiration := by
  have hunique : Unique ((s.accountTransactions address).filter
      (·.sequenceNumber < sequenceNumber)) :=
    h.unique.sublist ((List.filter_sublist.trans List.filter_sublist).map _)
  have hfold := (h.withMaps (s.transactions.filter fun t =>
    ¬ (t.getSender = address ∧ t.sequenceNumber < sequenceNumber)) s.sequenceNumbers
    ).foldl_indexRemove (fun t ht => (mem_committed.mp ht).1) hunique
  have hsame : s.transactions.filter (·.pointer ∉ ((s.accountTransactions address).filter
      (·.sequenceNumber < sequenceNumber)).map (·.pointer)) =
      (s.cleanCommittedTransactions address sequenceNumber).transactions := by
    rw [cleanCommittedTransactions, foldl_indexRemove_transactions]
    refine List.filter_congr fun t ht => decide_eq_decide.mpr (not_congr ?_)
    rw [List.mem_map]
    constructor
    · rintro ⟨a, ha, heq⟩
      obtain ⟨ha, hboth⟩ := mem_committed.mp ha
      rw [← h.unique.eq ha ht heq]
      exact hboth
    · exact fun hboth => ⟨t, mem_committed.mpr ⟨ht, hboth⟩, rfl⟩
  rw [hsame] at hfold
  exact hfold

end TransactionStore

end Anthemius.Mempool

import Anthemius.MempoolViews

/-!
# Garbage collection in the mempool

The expired transactions are removed in the order of their accounts and sequence numbers, and what
follows an expired transaction of an account is parked.
-/
namespace Anthemius.Mempool

namespace TransactionStore
variable {P : Type} {s s' : TransactionStore P} {world : MempoolTransaction P → Prop}
  {keepSystem keepExpiration : TTLOrderingKey → Prop}

/-- The transactions at some pointers are parked. -/
structure Demotes (s s' : TransactionStore P) (out : Set TxnPointer) : Prop where
  reorders : s.Reorders s'
  queued : s'.queued = s.queued \ out
  parked : s'.parked = s.parked ∪ out
  ready : s'.ready = s.ready \ out

theorem Indexed.foldl_demote {following : List (MempoolTransaction P)}
    (h : s.Indexed world s.transactions keepSystem keepExpiration)
    (hfollowing : ∀ t ∈ following, t ∈ s.transactions) (hunique : Unique following) :
    (following.foldl TransactionStore.demote s).Indexed world
        (following.foldl TransactionStore.demote s).transactions keepSystem keepExpiration ∧
      s.Demotes (following.foldl TransactionStore.demote s)
        {p | ∃ t ∈ following, t.pointer = p} := by
  induction following generalizing s with
  | nil => exact ⟨h, .refl s, by simp, by simp, by simp⟩
  | cons t following ih =>
    obtain ⟨hhead, hrest⟩ := List.nodup_cons.mp hunique
    have ht := hfollowing t List.mem_cons_self
    have hleft : ∀ a ∈ following, a ∈ (s.demote t).transactions := by
      intro a ha
      refine mem_withStateAt.mpr (Or.inl ⟨hfollowing a (List.mem_cons_of_mem t ha), ?_⟩)
      exact fun heq => hhead (List.mem_map.mpr ⟨a, ha, heq⟩)
    obtain ⟨hfold, hdemotes⟩ := ih (h.demote ht) hleft hrest
    have hout : {p | ∃ a ∈ t :: following, a.pointer = p} =
        {t.pointer} ∪ {p | ∃ a ∈ following, a.pointer = p} := by
      ext p
      simp only [List.exists_mem_cons_iff, Set.mem_union, Set.mem_singleton_iff,
        Set.mem_ofPred_eq, eq_comm]
    refine ⟨hfold, reorders_demote.trans hdemotes.reorders, ?_, ?_, ?_⟩
    · rw [List.foldl_cons, hdemotes.queued, h.queued_demote ht, Set.sdiff_sdiff, hout]
    · rw [List.foldl_cons, hdemotes.parked, h.parked_demote, Set.union_assoc, hout]
    · rw [List.foldl_cons, hdemotes.ready, ready_demote, Set.sdiff_sdiff, hout]

/-! ## One expired key -/

/-- Behind one of the keys in the same account. -/
def Behind (keys : Set TxnPointer) (p : TxnPointer) : Prop := ∃ k ∈ keys, k.1 = p.1 ∧ k.2 < p.2

/-- The transactions of the keys are removed, and those behind them are parked. -/
structure Collects (s s' : TransactionStore P) (keys : Set TxnPointer) : Prop where
  shrinks : s.Shrinks s'
  stored : ∀ p, p ∈ s'.stored ↔ p ∈ s.stored ∧ p ∉ keys
  queued : ∀ p, p ∈ s'.queued ↔ p ∈ s.queued ∧ p ∉ keys ∧ ¬ Behind keys p
  parked : ∀ p, p ∈ s'.parked ↔ (p ∈ s.parked ∨ p ∈ s.stored ∧ Behind keys p) ∧ p ∉ keys
  ready : ∀ p, p ∈ s'.ready ↔ p ∈ s.ready ∧ p ∉ keys ∧ ¬ Behind keys p

/-- The part of the account between the key and the next one. -/
def between (key : TTLOrderingKey) (next : Option TTLOrderingKey) : Set TxnPointer :=
  {p | p.1 = key.address ∧ key.sequenceNumber < p.2 ∧
    ∀ nextKey ∈ next, nextKey.address = key.address → p.2 < nextKey.sequenceNumber}

theorem ready_subset_stored : s.ready ⊆ s.stored := by
  rintro p ⟨t, ht, rfl, -⟩
  exact ⟨t, ht, rfl⟩

theorem mem_following {key : TTLOrderingKey} {next : Option TTLOrderingKey}
    {t : MempoolTransaction P} :
    t ∈ (s.accountTransactions key.address).filter (fun t =>
      key.sequenceNumber < t.sequenceNumber ∧ ∀ nextKey ∈ next,
        nextKey.address = key.address → t.sequenceNumber < nextKey.sequenceNumber) ↔
      t ∈ s.transactions ∧ t.pointer ∈ between key next := by
  simp only [accountTransactions, List.mem_filter, decide_eq_true_eq, and_assoc]
  rfl

/-- One round of the loop. -/
structure CollectsOne (s s' : TransactionStore P) (key : TTLOrderingKey)
    (next : Option TTLOrderingKey) : Prop where
  shrinks : s.Shrinks s'
  stored : s'.stored = s.stored \ {key.pointer}
  queued : s'.queued = (s.queued \ between key next) \ {key.pointer}
  parked : s'.parked = (s.parked ∪ (s.stored ∩ between key next)) \ {key.pointer}
  ready : s'.ready = (s.ready \ between key next) \ {key.pointer}

theorem Indexed.gcStep (h : s.Indexed world s.transactions keepSystem keepExpiration)
    (key : TTLOrderingKey) (next : Option TTLOrderingKey) :
    (s.gcStep key next).Indexed world (s.gcStep key next).transactions keepSystem keepExpiration ∧
      s.CollectsOne (s.gcStep key next) key next := by
  obtain ⟨hindexed, hdemotes⟩ := h.foldl_demote (fun t ht => (mem_following.mp ht).1)
    (h.unique.sublist ((List.filter_sublist.trans List.filter_sublist).map _))
  have hout : {p | ∃ t ∈ (s.accountTransactions key.address).filter (fun t =>
      key.sequenceNumber < t.sequenceNumber ∧ ∀ nextKey ∈ next,
        nextKey.address = key.address → t.sequenceNumber < nextKey.sequenceNumber),
      t.pointer = p} = s.stored ∩ between key next := by
    ext p
    simp only [mem_following, Set.mem_ofPred_eq]
    constructor
    · rintro ⟨t, ⟨ht, hbetween⟩, rfl⟩
      exact ⟨⟨t, ht, rfl⟩, hbetween⟩
    · rintro ⟨⟨t, ht, rfl⟩, hbetween⟩
      exact ⟨t, ⟨ht, hbetween⟩, rfl⟩
  rw [hout] at hdemotes
  have hqueued : s.queued \ (s.stored ∩ between key next) = s.queued \ between key next := by
    ext p
    have hsub : p ∈ s.queued → p ∈ s.stored := fun hp => queued_subset_stored hp
    simp only [Set.mem_sdiff, Set.mem_inter_iff]
    tauto
  have hready : s.ready \ (s.stored ∩ between key next) = s.ready \ between key next := by
    ext p
    have hsub : p ∈ s.ready → p ∈ s.stored := fun hp => ready_subset_stored hp
    simp only [Set.mem_sdiff, Set.mem_inter_iff]
    tauto
  rw [TransactionStore.gcStep]
  split
  next t hget =>
    obtain ⟨ht, hpointer⟩ := hindexed.getMempoolTxn_eq_some.mp hget
    have hremoves := hindexed.removes_discard ht
    rw [hpointer] at hremoves
    refine ⟨hindexed.discard ht, hdemotes.reorders.shrinks.trans hremoves.shrinks, ?_, ?_,
      ?_, ?_⟩
    · rw [hremoves.stored, hdemotes.reorders.stored]
    · rw [hremoves.queued, hdemotes.queued, hqueued]
    · rw [hremoves.parked, hdemotes.parked]
    · rw [hremoves.ready, hdemotes.ready, hready]
  next hget =>
    have hnot := getMempoolTxn_eq_none.mp hget
    refine ⟨hindexed, hdemotes.reorders.shrinks, ?_, ?_, ?_, ?_⟩
    · rw [← hdemotes.reorders.stored]
      exact (Set.sdiff_singleton_eq_self hnot).symm
    · rw [← hqueued, ← hdemotes.queued]
      exact (Set.sdiff_singleton_eq_self fun hp => hnot (queued_subset_stored hp)).symm
    · rw [← hdemotes.parked]
      exact (Set.sdiff_singleton_eq_self fun hp => hnot (hindexed.parked_subset_stored hp)).symm
    · rw [← hready, ← hdemotes.ready]
      exact (Set.sdiff_singleton_eq_self fun hp => hnot (ready_subset_stored hp)).symm

/-! ## All expired keys -/

def pointers (keys : List TTLOrderingKey) : Set TxnPointer :=
  {p | p ∈ keys.map TTLOrderingKey.pointer}

theorem mem_pointers_cons {key : TTLOrderingKey} {rest : List TTLOrderingKey} {p : TxnPointer} :
    p ∈ pointers (key :: rest) ↔ p = key.pointer ∨ p ∈ pointers rest := by
  rw [pointers, Set.mem_ofPred_eq, List.map_cons, List.mem_cons]
  rfl

theorem behind_cons {key : TTLOrderingKey} {rest : List TTLOrderingKey} {p : TxnPointer}
    (hp : p ∉ pointers (key :: rest)) :
    Behind (pointers (key :: rest)) p ↔
      p ∈ between key rest.head? ∨ Behind (pointers rest) p := by
  constructor
  · rintro ⟨k, hk, haddress, hlt⟩
    by_cases hbehind : Behind (pointers rest) p
    · exact Or.inr hbehind
    · -- then the next key of the account is behind the pointer
      obtain rfl | hk := mem_pointers_cons.mp hk
      · refine Or.inl ⟨haddress.symm, hlt, fun next hnext hsame => ?_⟩
        have hmem : next.pointer ∈ pointers rest :=
          List.mem_map_of_mem (List.mem_of_mem_head? hnext)
        have hne : next.pointer ≠ p :=
          fun heq => hp (mem_pointers_cons.mpr (Or.inr (heq ▸ hmem)))
        by_contra hle
        refine hbehind ⟨next.pointer, hmem, hsame.trans haddress, ?_⟩
        refine lt_of_le_of_ne (Nat.not_lt.mp hle) fun heq => hne ?_
        exact Prod.ext (hsame.trans haddress) heq
      · exact absurd ⟨k, hk, haddress, hlt⟩ hbehind
  · rintro (⟨haddress, hlt, -⟩ | ⟨k, hk, hrest⟩)
    · exact ⟨key.pointer, mem_pointers_cons.mpr (Or.inl rfl), haddress.symm, hlt⟩
    · exact ⟨k, mem_pointers_cons.mpr (Or.inr hk), hrest⟩

theorem Collects.nil (s : TransactionStore P) : s.Collects s (pointers []) := by
  have hempty : ∀ p, p ∉ pointers [] := fun p hp => absurd hp List.not_mem_nil
  have hbehind : ∀ p, ¬ Behind (pointers []) p := by
    rintro p ⟨k, hk, -⟩
    exact hempty k hk
  refine ⟨.refl s, fun p => ?_, fun p => ?_, fun p => ?_, fun p => ?_⟩ <;>
    simp [hempty, hbehind]

theorem Collects.cons {s₁ : TransactionStore P} {key : TTLOrderingKey}
    {rest : List TTLOrderingKey} (hone : s.CollectsOne s₁ key rest.head?)
    (hrest : s₁.Collects s' (pointers rest)) :
    s.Collects s' (pointers (key :: rest)) := by
  refine ⟨hone.shrinks.trans hrest.shrinks, fun p => ?_, fun p => ?_, fun p => ?_, fun p => ?_⟩
  all_goals
    have hmem : p ∈ pointers (key :: rest) ↔ p = key.pointer ∨ p ∈ pointers rest :=
      mem_pointers_cons
    have hbehind : p ∉ pointers (key :: rest) → _ := behind_cons
  · rw [hrest.stored, hone.stored, hmem, not_or, Set.mem_sdiff, Set.mem_singleton_iff, and_assoc]
  · rw [hrest.queued, hone.queued]
    simp only [Set.mem_sdiff, Set.mem_singleton_iff]
    tauto
  · rw [hrest.parked, hone.parked, hone.stored]
    simp only [Set.mem_sdiff, Set.mem_singleton_iff, Set.mem_union, Set.mem_inter_iff]
    tauto
  · rw [hrest.ready, hone.ready]
    simp only [Set.mem_sdiff, Set.mem_singleton_iff]
    tauto

theorem Indexed.gcLoop (h : s.Indexed world s.transactions keepSystem keepExpiration)
    (keys : List TTLOrderingKey) :
    (TransactionStore.gcLoop keys s).Indexed world (TransactionStore.gcLoop keys s).transactions
        keepSystem keepExpiration ∧
      s.Collects (TransactionStore.gcLoop keys s) (pointers keys) := by
  induction keys generalizing s with
  | nil => exact ⟨h, .nil s⟩
  | cons key rest ih =>
    obtain ⟨hindexed, hone⟩ := h.gcStep key rest.head?
    obtain ⟨hloop, hcollects⟩ := ih hindexed
    exact ⟨hloop, .cons hone hcollects⟩

/-! ## The two collections -/

/-- The pointers of the transactions with an expired key. -/
def expired (s : TransactionStore P) (key : MempoolTransaction P → TTLOrderingKey) (now : ℕ) :
    Set TxnPointer :=
  {p | ∃ t ∈ s.transactions, t.pointer = p ∧ (key t).isExpired now}

theorem Indexed.weaken {l : List (MempoolTransaction P)}
    (h : s.Indexed world l keepSystem keepExpiration)
    (hsystem : ∀ t ∈ l, keepSystem t.systemTtlKey)
    (hexpiration : ∀ t ∈ l, keepExpiration t.expirationTimeKey) :
    s.Indexed world l (fun _ => True) fun _ => True := by
  refine ⟨h.unique, h.inserted, fun key => ?_, h.systemTtlNodup, fun key => ?_,
    h.expirationTimeNodup, h.hash, h.priority, h.timelineIndex, h.timeline, h.parkingLotIndex,
    h.parked, h.size⟩
  · rw [h.systemTtl, true_and]
    refine ⟨And.right, ?_⟩
    rintro ⟨t, ht, rfl⟩
    exact ⟨hsystem t ht, t, ht, rfl⟩
  · rw [h.expirationTime, true_and]
    refine ⟨And.right, ?_⟩
    rintro ⟨t, ht, rfl⟩
    exact ⟨hexpiration t ht, t, ht, rfl⟩

theorem pointers_sortKeys {index : List TTLOrderingKey}
    (key : MempoolTransaction P → TTLOrderingKey)
    (hindex : ∀ k, k ∈ index ↔ ∃ t ∈ s.transactions, key t = k)
    (hkey : ∀ t : MempoolTransaction P, (key t).pointer = t.pointer) (now : ℕ) :
    pointers (sortKeys (index.filter (·.isExpired now))) = s.expired key now := by
  ext p
  have hperm : (sortKeys (index.filter (·.isExpired now))).Perm (index.filter (·.isExpired now)) :=
    List.mergeSort_perm _ _
  rw [pointers, Set.mem_ofPred_eq, (hperm.map _).mem_iff, List.mem_map]
  simp only [List.mem_filter, hindex]
  constructor
  · rintro ⟨_, ⟨⟨t, ht, rfl⟩, hexpired⟩, rfl⟩
    exact ⟨t, ht, (hkey t).symm, hexpired⟩
  · rintro ⟨t, ht, rfl, hexpired⟩
    exact ⟨key t, ⟨⟨t, ht, rfl⟩, hexpired⟩, hkey t⟩

theorem Collects.not_expired {key : MempoolTransaction P → TTLOrderingKey} {now : ℕ}
    (h : s.Collects s' (s.expired key now))
    (hkey : ∀ (t : MempoolTransaction P) state, key (t.withState state) = key t) :
    ∀ t ∈ s'.transactions, ¬ (key t).isExpired now = true := by
  intro t ht hexpired
  obtain ⟨a, ha, heq⟩ := h.shrinks.bodies t ht
  have hsame : key a = key t := by
    rw [← hkey a .notReady, heq, hkey]
  refine ((h.stored t.pointer).mp ⟨t, ht, rfl⟩).2 ⟨a, ha, congrArg (fun t => t.pointer) heq, ?_⟩
  rw [hsame]
  exact hexpired

/-- The keys that the collection looks at. -/
def gcKey (bySystemTtl : Bool) (t : MempoolTransaction P) : TTLOrderingKey :=
  if bySystemTtl then t.systemTtlKey else t.expirationTimeKey

theorem Collects.withKeys {keys : Set TxnPointer} {systemTtl expiration : List TTLOrderingKey}
    (h : Collects { s with systemTtlIndex := systemTtl, expirationTimeIndex := expiration } s'
      keys) :
    s.Collects s' keys :=
  ⟨⟨h.shrinks.bodies, h.shrinks.kept, h.shrinks.gone, h.shrinks.same, h.shrinks.timeline,
    h.shrinks.limits⟩, h.stored, h.queued, h.parked, h.ready⟩

theorem Indexed.withKeys {l : List (MempoolTransaction P)}
    (h : s.Indexed world l (fun _ => True) fun _ => True)
    (systemTtl expiration : TTLOrderingKey → Bool) :
    Indexed { s with
      systemTtlIndex := s.systemTtlIndex.filter systemTtl
      expirationTimeIndex := s.expirationTimeIndex.filter expiration } world l (systemTtl ·)
      (expiration ·) :=
  ⟨h.unique, h.inserted, fun key => by rw [List.mem_filter, h.systemTtl, true_and, and_comm],
    h.systemTtlNodup.filter _,
    fun key => by rw [List.mem_filter, h.expirationTime, true_and, and_comm],
    h.expirationTimeNodup.filter _, h.hash, h.priority, h.timelineIndex, h.timeline,
    h.parkingLotIndex, h.parked, h.size⟩

/-- The expired transactions are removed, and what is behind them is parked. -/
theorem Indexed.gc (h : s.Consistent world) (now : ℕ) (bySystemTtl : Bool) :
    (s.gc now bySystemTtl).Consistent world ∧
      s.Collects (s.gc now bySystemTtl) (s.expired (gcKey bySystemTtl) now) := by
  cases bySystemTtl with
  | true =>
    have hpointers := pointers_sortKeys (s := s) (gcKey true)
      (fun k => (h.systemTtl k).trans (iff_of_eq (true_and _))) (fun _ => rfl) now
    have hindexed := h.withKeys (!·.isExpired now) fun _ => true
    rw [List.filter_true] at hindexed
    obtain ⟨hgc, hcollects⟩ := hindexed.gcLoop
      (sortKeys (s.systemTtlIndex.filter (·.isExpired now)))
    have hcollects := hcollects.withKeys
    rw [hpointers] at hcollects
    refine ⟨hgc.weaken (fun t ht => ?_) fun _ _ => rfl, hcollects⟩
    simpa [gcKey] using hcollects.not_expired (fun _ _ => rfl) t ht
  | false =>
    have hpointers := pointers_sortKeys (s := s) (gcKey false)
      (fun k => (h.expirationTime k).trans (iff_of_eq (true_and _))) (fun _ => rfl) now
    have hindexed := h.withKeys (fun _ => true) (!·.isExpired now)
    rw [List.filter_true] at hindexed
    obtain ⟨hgc, hcollects⟩ := hindexed.gcLoop
      (sortKeys (s.expirationTimeIndex.filter (·.isExpired now)))
    have hcollects := hcollects.withKeys
    rw [hpointers] at hcollects
    refine ⟨hgc.weaken (fun _ _ => rfl) fun t ht => ?_, hcollects⟩
    simpa [gcKey] using hcollects.not_expired (fun _ _ => rfl) t ht

end TransactionStore

end Anthemius.Mempool

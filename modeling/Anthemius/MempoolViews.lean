import Anthemius.MempoolConsistency
import Mathlib.Data.Set.Insert

/-!
# Where the transactions of the mempool are

A transaction is named by its pointer. The view of a store says which transactions are stored, in
the queue, parked and ready, and each step of the calls changes it for some pointers.
-/
namespace Anthemius.Mempool

namespace TransactionStore
variable {P : Type}

def stored (s : TransactionStore P) : Set TxnPointer := {p | ∃ t ∈ s.transactions, t.pointer = p}

def queued (s : TransactionStore P) : Set TxnPointer :=
  {p | ∃ t ∈ s.transactions, t.pointer = p ∧ t.queueKey ∈ s.priorityIndex}

def parked (s : TransactionStore P) : Set TxnPointer := {p | s.parkingLotIndex.Parked p}

def ready (s : TransactionStore P) : Set TxnPointer :=
  {p | ∃ t ∈ s.transactions, t.pointer = p ∧ t.isReady}

/-- The account has a stored transaction. -/
def HasTransactions (s : TransactionStore P) (address : AccountAddress) : Prop :=
  ∃ p ∈ s.stored, p.1 = address

variable {s : TransactionStore P} {world : MempoolTransaction P → Prop}
  {keepSystem keepExpiration : TTLOrderingKey → Prop} {t : MempoolTransaction P}
  {address : AccountAddress} {p : TxnPointer}

theorem isEmpty_accountTransactions :
    (s.accountTransactions address).isEmpty = true ↔ ¬ s.HasTransactions address := by
  rw [List.isEmpty_iff, accountTransactions, List.filter_eq_nil_iff]
  simp only [decide_eq_true_eq]
  constructor
  · rintro h ⟨_, ⟨t, ht, rfl⟩, haddress⟩
    exact h t ht haddress
  · intro h t ht haddress
    exact h ⟨t.pointer, ⟨t, ht, rfl⟩, haddress⟩

theorem hasTransactions_of_isEmpty (h : (s.accountTransactions address).isEmpty = false) :
    s.HasTransactions address := by
  by_contra hnot
  rw [isEmpty_accountTransactions.mpr hnot] at h
  cases h

theorem queueKey_pointer {a b : MempoolTransaction P} (h : a.queueKey = b.queueKey) :
    a.pointer = b.pointer :=
  congrArg (fun k : OrderedQueueKey => (k.address, k.sequenceNumber)) h

theorem queued_subset_stored : s.queued ⊆ s.stored := by
  rintro p ⟨t, ht, rfl, -⟩
  exact ⟨t, ht, rfl⟩

theorem Indexed.parked_subset_stored
    (h : s.Indexed world s.transactions keepSystem keepExpiration) : s.parked ⊆ s.stored :=
  fun p hp => h.parked p hp

theorem Indexed.getMempoolTxn_eq_some
    (h : s.Indexed world s.transactions keepSystem keepExpiration) :
    s.getMempoolTxn p = some t ↔ t ∈ s.transactions ∧ t.pointer = p := by
  constructor
  · intro hfind
    exact ⟨List.mem_of_find?_eq_some hfind, by simpa using List.find?_some hfind⟩
  · rintro ⟨ht, rfl⟩
    cases hfind : s.getMempoolTxn t.pointer with
    | none =>
      have hnone := List.find?_eq_none.mp hfind t ht
      simp at hnone
    | some a =>
      have ha := List.mem_of_find?_eq_some hfind
      have hpointer : a.pointer = t.pointer := by simpa using List.find?_some hfind
      rw [h.unique.eq ha ht hpointer]

theorem getMempoolTxn_eq_none : s.getMempoolTxn p = none ↔ p ∉ s.stored := by
  rw [getMempoolTxn, List.find?_eq_none, stored]
  simp

/-- What the configuration has set. -/
def limits (s : TransactionStore P) : ℕ × ℕ × ℕ × ℕ × ℕ :=
  (s.capacity, s.capacityBytes, s.capacityPerUser, s.maxBatchBytes, s.overheadBytes)

/-! ## Removal -/

/-- No transaction comes in. Accounts that have no more transactions lose their sequence number,
and the others keep it. -/
structure Shrinks (s s' : TransactionStore P) : Prop where
  bodies : ∀ t ∈ s'.transactions, ∃ a ∈ s.transactions,
    a.withState .notReady = t.withState .notReady
  kept : ∀ address, s'.HasTransactions address →
    s'.sequenceNumbers address = s.sequenceNumbers address
  gone : ∀ address, s.HasTransactions address → ¬ s'.HasTransactions address →
    s'.sequenceNumbers address = none
  same : ∀ address, ¬ s.HasTransactions address →
    s'.sequenceNumbers address = s.sequenceNumbers address
  timeline : s.timelineIndex.Advances s'.timelineIndex
  limits : s'.limits = s.limits

namespace Shrinks
variable {s' s'' : TransactionStore P}

theorem subset (h : s.Shrinks s') : s'.stored ⊆ s.stored := by
  rintro p ⟨t, ht, rfl⟩
  obtain ⟨a, ha, heq⟩ := h.bodies t ht
  exact ⟨a, ha, congrArg (fun t => t.pointer) heq⟩

theorem hasTransactions (h : s.Shrinks s') (haddress : s'.HasTransactions address) :
    s.HasTransactions address := by
  obtain ⟨p, hp, haddress⟩ := haddress
  exact ⟨p, h.subset hp, haddress⟩

theorem refl (s : TransactionStore P) : s.Shrinks s :=
  ⟨fun t h => ⟨t, h, rfl⟩, fun _ _ => rfl, fun _ h h' => absurd h h', fun _ _ => rfl, .refl _, rfl⟩

theorem trans (h : s.Shrinks s') (h' : s'.Shrinks s'') : s.Shrinks s'' where
  bodies t ht := by
    obtain ⟨a, ha, heq⟩ := h'.bodies t ht
    obtain ⟨b, hb, heq'⟩ := h.bodies a ha
    exact ⟨b, hb, heq'.trans heq⟩
  kept address haddress := by
    rw [h'.kept address haddress, h.kept address (h'.hasTransactions haddress)]
  gone address haddress hgone := by
    by_cases hmiddle : s'.HasTransactions address
    · exact h'.gone address hmiddle hgone
    · rw [h'.same address hmiddle, h.gone address haddress hmiddle]
  same address haddress := by
    have hmiddle : ¬ s'.HasTransactions address := fun hin => haddress (h.hasTransactions hin)
    rw [h'.same address hmiddle, h.same address haddress]
  timeline := h.timeline.trans h'.timeline
  limits := h'.limits.trans h.limits

end Shrinks

/-- The transactions at some pointers are removed. -/
structure Removes (s s' : TransactionStore P) (out : Set TxnPointer) : Prop where
  shrinks : s.Shrinks s'
  transactions : ∀ t, t ∈ s'.transactions ↔ t ∈ s.transactions ∧ t.pointer ∉ out
  priority : ∀ t ∈ s'.transactions,
    t.queueKey ∈ s'.priorityIndex ↔ t.queueKey ∈ s.priorityIndex
  parked : s'.parked = s.parked \ out

namespace Removes
variable {s' s'' : TransactionStore P} {out out' : Set TxnPointer}

theorem stored (h : s.Removes s' out) : s'.stored = s.stored \ out := by
  ext p
  constructor
  · rintro ⟨t, ht, rfl⟩
    obtain ⟨ht, hout⟩ := (h.transactions t).mp ht
    exact ⟨⟨t, ht, rfl⟩, hout⟩
  · rintro ⟨⟨t, ht, rfl⟩, hout⟩
    exact ⟨t, (h.transactions t).mpr ⟨ht, hout⟩, rfl⟩

theorem queued (h : s.Removes s' out) : s'.queued = s.queued \ out := by
  ext p
  constructor
  · rintro ⟨t, ht, rfl, hkey⟩
    have hkey' := (h.priority t ht).mp hkey
    obtain ⟨ht, hout⟩ := (h.transactions t).mp ht
    exact ⟨⟨t, ht, rfl, hkey'⟩, hout⟩
  · rintro ⟨⟨t, ht, rfl, hkey⟩, hout⟩
    have ht' := (h.transactions t).mpr ⟨ht, hout⟩
    exact ⟨t, ht', rfl, (h.priority t ht').mpr hkey⟩

theorem ready (h : s.Removes s' out) : s'.ready = s.ready \ out := by
  ext p
  constructor
  · rintro ⟨t, ht, rfl, hready⟩
    obtain ⟨ht, hout⟩ := (h.transactions t).mp ht
    exact ⟨⟨t, ht, rfl, hready⟩, hout⟩
  · rintro ⟨⟨t, ht, rfl, hready⟩, hout⟩
    exact ⟨t, (h.transactions t).mpr ⟨ht, hout⟩, rfl, hready⟩

theorem refl (s : TransactionStore P) : s.Removes s ∅ :=
  ⟨.refl s, fun t => by simp, fun t _ => Iff.rfl, by simp⟩

theorem trans (h : s.Removes s' out) (h' : s'.Removes s'' out') :
    s.Removes s'' (out ∪ out') where
  shrinks := h.shrinks.trans h'.shrinks
  transactions t := by
    rw [h'.transactions, h.transactions, Set.mem_union, not_or, and_assoc]
  priority t ht := by
    rw [h'.priority t ht, h.priority t ((h'.transactions t).mp ht).1]
  parked := by rw [h'.parked, h.parked, Set.sdiff_sdiff]

/-- Only the pointers of stored transactions count. -/
theorem congr (h : s.Removes s' out) (hparked : s.parked ⊆ s.stored)
    (hout : ∀ p ∈ s.stored, p ∈ out ↔ p ∈ out') : s.Removes s' out' := by
  refine ⟨h.shrinks, fun t => ?_, h.priority, ?_⟩
  · rw [h.transactions]
    exact and_congr_right fun ht => not_congr (hout t.pointer ⟨t, ht, rfl⟩)
  · rw [h.parked]
    ext p
    exact and_congr_right fun hp => not_congr (hout p (hparked hp))

end Removes

/-- Entries are removed one after the other. -/
theorem foldl_indexRemove (removed : List (MempoolTransaction P)) (s : TransactionStore P)
    (hlot : s.parkingLotIndex.Valid) :
    let s' := removed.foldl indexRemove s
    s'.transactions = s.transactions ∧
    (∀ key, key ∈ s'.priorityIndex ↔ key ∈ s.priorityIndex ∧ ∀ t ∈ removed, key ≠ t.queueKey) ∧
    (∀ p, p ∈ s'.parked ↔ p ∈ s.parked ∧ ∀ t ∈ removed, p ≠ t.pointer) ∧
    (∀ address, s.HasTransactions address ∨ (∀ t ∈ removed, t.getSender ≠ address) →
      s'.sequenceNumbers address = s.sequenceNumbers address) ∧
    (∀ address, ¬ s.HasTransactions address → (∃ t ∈ removed, t.getSender = address) →
      s'.sequenceNumbers address = none) ∧
    s.timelineIndex.Advances s'.timelineIndex ∧ s'.limits = s.limits := by
  induction removed generalizing s with
  | nil => simp [MultiBucketTimelineIndex.Advances.refl]
  | cons t removed ih =>
    obtain ⟨htransactions, hpriority, hparked, hkept, hgone, htimeline, hlimits⟩ :=
      ih (s.indexRemove t) hlot.remove
    have hhas : ∀ address, (s.indexRemove t).HasTransactions address ↔
        s.HasTransactions address := fun _ => Iff.rfl
    have hnumbers : (s.indexRemove t).sequenceNumbers =
        if (s.accountTransactions t.getSender).isEmpty
        then Function.update s.sequenceNumbers t.getSender none else s.sequenceNumbers := rfl
    have hempty : (s.accountTransactions t.getSender).isEmpty = true ↔
        ¬ s.HasTransactions t.getSender := isEmpty_accountTransactions
    simp only [List.foldl_cons]
    refine ⟨htransactions, fun key => ?_, fun p => ?_, fun address hcase => ?_,
      fun address hnone hsome => ?_, MultiBucketTimelineIndex.advances_remove.trans htimeline,
      hlimits⟩
    · rw [hpriority, List.forall_mem_cons]
      change key ∈ s.priorityIndex.filter (· ≠ t.queueKey) ∧ _ ↔ _
      rw [List.mem_filter, decide_eq_true_eq, and_assoc]
    · rw [hparked, List.forall_mem_cons]
      change (s.parkingLotIndex.remove t.pointer).Parked p ∧ _ ↔ _
      rw [hlot.parked_remove, and_comm (a := p ≠ t.pointer), and_assoc]
      rfl
    · rw [hkept address (hcase.imp id fun hall a ha => hall a (List.mem_cons_of_mem t ha)),
        hnumbers]
      split
      next hisEmpty =>
        refine Function.update_of_ne (fun heq => ?_) _ _
        subst heq
        exact hcase.elim (hempty.mp hisEmpty) fun hall => hall t List.mem_cons_self rfl
      next => rfl
    · by_cases hrest : ∃ a ∈ removed, a.getSender = address
      · exact hgone address hnone hrest
      · obtain ⟨a, ha, rfl⟩ := hsome
        push Not at hrest
        obtain rfl | ha := List.mem_cons.mp ha
        · rw [hkept _ (Or.inr hrest), hnumbers, if_pos (hempty.mpr hnone), Function.update_self]
        · exact absurd rfl (hrest a ha)

/-- The part of the account below a sequence number. -/
def below (address : AccountAddress) (sequenceNumber : ℕ) : Set TxnPointer :=
  {p | p.1 = address ∧ p.2 < sequenceNumber}

/-- The transactions are taken out together, and then their entries are removed. -/
def removeAll (s : TransactionStore P) (removed rest : List (MempoolTransaction P)) :
    TransactionStore P :=
  removed.foldl indexRemove { s with transactions := rest }

section Steps
variable (h : s.Indexed world s.transactions keepSystem keepExpiration)
include h

theorem Indexed.removes (removed rest : List (MempoolTransaction P))
    (hremoved : ∀ t ∈ removed, t ∈ s.transactions)
    (hrest : ∀ t, t ∈ rest ↔ t ∈ s.transactions ∧ ∀ a ∈ removed, t.pointer ≠ a.pointer) :
    s.Removes (s.removeAll removed rest) {p | ∃ a ∈ removed, a.pointer = p} := by
  obtain ⟨htransactions, hpriority, hparked, hkept, hgone, htimeline, hlimits⟩ :=
    TransactionStore.foldl_indexRemove removed { s with transactions := rest } h.parkingLotIndex
  have hmem : ∀ t, t ∈ (s.removeAll removed rest).transactions ↔ t ∈ rest :=
    fun t => iff_of_eq (congrArg (t ∈ ·) htransactions)
  have hhas : ∀ address, (s.removeAll removed rest).HasTransactions address ↔
      HasTransactions { s with transactions := rest } address := by
    intro address
    simp only [HasTransactions, TransactionStore.stored, Set.mem_ofPred_eq, hmem]
  refine ⟨⟨fun t ht => ?_, fun address haddress => ?_, fun address hbefore hafter => ?_,
    fun address hnone => ?_, htimeline, hlimits⟩, fun t => ?_, fun t ht => ?_, ?_⟩
  · exact ⟨t, ((hrest t).mp ((hmem t).mp ht)).1, rfl⟩
  · exact hkept address (Or.inl ((hhas address).mp haddress))
  · -- a transaction of the account that is gone is among the removed ones
    obtain ⟨p, ⟨t, ht, rfl⟩, rfl⟩ := hbefore
    refine hgone _ (fun hin => hafter ((hhas _).mpr hin)) ?_
    by_contra hnot
    push Not at hnot
    refine hafter ((hhas _).mpr ⟨t.pointer, ⟨t, (hrest t).mpr ⟨ht, fun a ha heq => ?_⟩, rfl⟩, rfl⟩)
    exact hnot a ha (congrArg Prod.fst heq.symm)
  · refine hkept address (Or.inr fun a ha heq => hnone ?_)
    exact ⟨a.pointer, ⟨a, hremoved a ha, rfl⟩, heq⟩
  · rw [hmem, hrest]
    simp only [Set.mem_ofPred_eq, not_exists, not_and, eq_comm, ne_eq]
  · refine (hpriority t.queueKey).trans ⟨And.left, fun hkey => ⟨hkey, fun a ha heq => ?_⟩⟩
    exact ((hrest t).mp ((hmem t).mp ht)).2 a ha (queueKey_pointer heq)
  · ext p
    refine (hparked p).trans ?_
    simp only [Set.mem_sdiff, Set.mem_ofPred_eq, not_exists, not_and, eq_comm, ne_eq]
    rfl

theorem Indexed.removes_discard (ht : t ∈ s.transactions) :
    s.Removes (s.discard t) {t.pointer} := by
  have hremoves := h.removes [t] (without s.transactions t.pointer)
    (fun a ha => (List.mem_singleton.mp ha) ▸ ht)
    (fun a => by rw [mem_without]; simp)
  have hout : {p | ∃ a ∈ [t], a.pointer = p} = ({t.pointer} : Set TxnPointer) := by
    ext p
    simp [eq_comm]
  rw [hout] at hremoves
  exact hremoves

theorem Indexed.removes_clean (address : AccountAddress) (sequenceNumber : ℕ) :
    s.Removes (s.cleanCommittedTransactions address sequenceNumber)
      (below address sequenceNumber) := by
  have hremoves := h.removes
    ((s.accountTransactions address).filter (·.sequenceNumber < sequenceNumber))
    (s.transactions.filter fun t =>
      ¬ (t.getSender = address ∧ t.sequenceNumber < sequenceNumber))
    (fun t ht => (mem_committed.mp ht).1) (fun t => by
      simp only [mem_committed]
      rw [List.mem_filter, decide_eq_true_eq]
      refine and_congr_right fun ht => ⟨fun hnot a ha heq => hnot ?_, fun hall hboth => ?_⟩
      · rw [h.unique.eq ht ha.1 heq]
        exact ha.2
      · exact hall t ⟨ht, hboth⟩ rfl)
  refine hremoves.congr h.parked_subset_stored ?_
  rintro p ⟨t, ht, rfl⟩
  constructor
  · rintro ⟨a, ha, heq⟩
    rw [← heq]
    exact (mem_committed.mp ha).2
  · intro hbelow
    exact ⟨t, mem_committed.mpr ⟨ht, hbelow⟩, rfl⟩

theorem Indexed.removes_self (hp : p ∉ s.stored) : s.Removes s {p} := by
  refine (Removes.refl s).congr h.parked_subset_stored fun q hq => ?_
  refine iff_of_false (Set.notMem_empty q) ?_
  rintro rfl
  exact hp hq

end Steps

/-! ## Changes of place -/

/-- Only the queue, the parking lot, the timeline and the states change. -/
structure Reorders (s s' : TransactionStore P) : Prop where
  bodies : s'.transactions.map (·.withState .notReady) = s.transactions.map (·.withState .notReady)
  numbers : s'.sequenceNumbers = s.sequenceNumbers
  systemTtlIndex : s'.systemTtlIndex = s.systemTtlIndex
  sizeBytes : s'.sizeBytes = s.sizeBytes
  timeline : s.timelineIndex.Advances s'.timelineIndex
  limits : s'.limits = s.limits

namespace Reorders
variable {s' s'' : TransactionStore P}

theorem refl (s : TransactionStore P) : s.Reorders s := ⟨rfl, rfl, rfl, rfl, .refl _, rfl⟩

theorem trans (h : s.Reorders s') (h' : s'.Reorders s'') : s.Reorders s'' :=
  ⟨h'.bodies.trans h.bodies, h'.numbers.trans h.numbers,
    h'.systemTtlIndex.trans h.systemTtlIndex, h'.sizeBytes.trans h.sizeBytes,
    h.timeline.trans h'.timeline, h'.limits.trans h.limits⟩

/-- What does not read the state is the same for the transactions before and after. -/
theorem map_eq (h : s.Reorders s') {K : Type} (key : MempoolTransaction P → K)
    (hkey : ∀ a state, key (a.withState state) = key a) :
    s'.transactions.map key = s.transactions.map key := by
  have hbodies := congrArg (List.map key) h.bodies
  rw [List.map_map, List.map_map] at hbodies
  have hcomp : key ∘ (·.withState .notReady) = key := funext fun a => hkey a .notReady
  rw [hcomp] at hbodies
  exact hbodies

theorem exists_iff (h : s.Reorders s') {K : Type} (key : MempoolTransaction P → K)
    (hkey : ∀ a state, key (a.withState state) = key a) {k : K} :
    (∃ t ∈ s'.transactions, key t = k) ↔ ∃ t ∈ s.transactions, key t = k := by
  rw [← List.mem_map, ← List.mem_map, h.map_eq key hkey]

theorem stored (h : s.Reorders s') : s'.stored = s.stored := by
  ext p
  exact h.exists_iff MempoolTransaction.pointer fun _ _ => rfl

theorem hasTransactions (h : s.Reorders s') :
    s'.HasTransactions address ↔ s.HasTransactions address := by
  rw [HasTransactions, h.stored]
  rfl

theorem shrinks (h : s.Reorders s') : s.Shrinks s' where
  bodies t ht := (h.exists_iff (·.withState .notReady) fun _ _ => rfl).mp ⟨t, ht, rfl⟩
  kept _ _ := congrFun h.numbers _
  gone _ hbefore hafter := absurd (h.hasTransactions.mpr hbefore) hafter
  same _ _ := congrFun h.numbers _
  timeline := h.timeline
  limits := h.limits

/-- What the queue holds after it has changed. -/
theorem mem_queued (h : s.Reorders s') : p ∈ s'.queued ↔
    ∃ t ∈ s.transactions, t.pointer = p ∧ t.queueKey ∈ s'.priorityIndex := by
  constructor
  · rintro ⟨t, ht, hpointer, hkey⟩
    obtain ⟨a, ha, heq⟩ := (h.exists_iff (fun t => (t.pointer, t.queueKey)) fun _ _ => rfl).mp
      ⟨t, ht, rfl⟩
    obtain ⟨hp, hk⟩ := Prod.mk.inj heq
    exact ⟨a, ha, hp.trans hpointer, hk ▸ hkey⟩
  · rintro ⟨t, ht, hpointer, hkey⟩
    obtain ⟨a, ha, heq⟩ := (h.exists_iff (fun t => (t.pointer, t.queueKey)) fun _ _ => rfl).mpr
      ⟨t, ht, rfl⟩
    obtain ⟨hp, hk⟩ := Prod.mk.inj heq
    exact ⟨a, ha, hp.trans hpointer, hk ▸ hkey⟩

end Reorders

/-- One transaction changes its place and its state. -/
def relocate (s : TransactionStore P) (p : TxnPointer) (priority : List OrderedQueueKey)
    (lot : ParkingLotIndex) (index : MultiBucketTimelineIndex) (state : TimelineState) :
    TransactionStore P :=
  { s with
    priorityIndex := priority
    parkingLotIndex := lot
    timelineIndex := index
    transactions := withStateAt s.transactions p state }

theorem reorders_relocate {priority : List OrderedQueueKey} {lot : ParkingLotIndex}
    {index : MultiBucketTimelineIndex} {state : TimelineState}
    (hindex : s.timelineIndex.Advances index) :
    s.Reorders (s.relocate p priority lot index state) :=
  ⟨map_withStateAt (·.withState .notReady) (fun _ _ => rfl) p state, rfl, rfl, rfl, hindex, rfl⟩

/-- The others have the state they had. -/
theorem ready_relocate {priority : List OrderedQueueKey} {lot : ParkingLotIndex}
    {index : MultiBucketTimelineIndex} {state : TimelineState} {q : TxnPointer} (hne : q ≠ p) :
    q ∈ (s.relocate p priority lot index state).ready ↔ q ∈ s.ready := by
  change (∃ t ∈ withStateAt s.transactions p state, t.pointer = q ∧ t.isReady) ↔ _
  simp only [mem_withStateAt]
  constructor
  · rintro ⟨t, ⟨ht, -⟩ | ⟨a, -, rfl, rfl⟩, rfl, hready⟩
    · exact ⟨t, ht, rfl, hready⟩
    · exact absurd rfl hne
  · rintro ⟨t, ht, rfl, hready⟩
    exact ⟨t, Or.inl ⟨ht, hne⟩, rfl, hready⟩

section Places
variable {s' : TransactionStore P}
  (h : s.Indexed world s.transactions keepSystem keepExpiration) (ht : t ∈ s.transactions)
include h ht

theorem Indexed.promote_eq (hs : s.promote t = some s') : ∃ index state,
    s' = s.relocate t.pointer (s.priorityIndex.insert t.queueKey)
      (s.parkingLotIndex.remove t.pointer) index state ∧ s.timelineIndex.Advances index := by
  obtain ⟨broadcast, hbroadcast, rfl⟩ := Option.map_eq_some_iff.mp hs
  split at hbroadcast
  next =>
    obtain ⟨⟨id, index⟩, hinsert, heq⟩ := Option.bind_eq_some_iff.mp hbroadcast
    cases heq
    exact ⟨index, .ready id, rfl, h.timelineIndex.advances_insert hinsert⟩
  next =>
    cases hbroadcast
    refine ⟨s.timelineIndex, t.timelineState, ?_, .refl _⟩
    rw [relocate, h.unique.withStateAt_self ht]

theorem Indexed.reorders_promote (hs : s.promote t = some s') : s.Reorders s' := by
  obtain ⟨index, state, rfl, hindex⟩ := h.promote_eq ht hs
  exact reorders_relocate hindex

theorem Indexed.queued_promote (hs : s.promote t = some s') :
    s'.queued = s.queued ∪ {t.pointer} := by
  obtain ⟨index, state, rfl, hindex⟩ := h.promote_eq ht hs
  ext p
  rw [(reorders_relocate hindex).mem_queued]
  change (∃ a ∈ s.transactions, a.pointer = p ∧ a.queueKey ∈ s.priorityIndex.insert t.queueKey) ↔ _
  simp only [List.mem_insert_iff]
  constructor
  · rintro ⟨a, ha, rfl, hkey | hkey⟩
    · exact Or.inr (queueKey_pointer hkey)
    · exact Or.inl ⟨a, ha, rfl, hkey⟩
  · rintro (⟨a, ha, rfl, hkey⟩ | rfl)
    · exact ⟨a, ha, rfl, Or.inr hkey⟩
    · exact ⟨t, ht, rfl, Or.inl rfl⟩

theorem Indexed.parked_promote (hs : s.promote t = some s') :
    s'.parked = s.parked \ {t.pointer} := by
  obtain ⟨index, state, rfl, -⟩ := h.promote_eq ht hs
  ext p
  exact h.parkingLotIndex.parked_remove.trans and_comm

theorem Indexed.ready_promote (hs : s.promote t = some s') (hne : p ≠ t.pointer) :
    p ∈ s'.ready ↔ p ∈ s.ready := by
  obtain ⟨index, state, rfl, -⟩ := h.promote_eq ht hs
  exact ready_relocate hne

omit h ht in
theorem reorders_demote : s.Reorders (s.demote t) :=
  reorders_relocate MultiBucketTimelineIndex.advances_remove

theorem Indexed.queued_demote : (s.demote t).queued = s.queued \ {t.pointer} := by
  ext p
  rw [reorders_demote.mem_queued]
  change (∃ a ∈ s.transactions, a.pointer = p ∧
    a.queueKey ∈ s.priorityIndex.filter (· ≠ t.queueKey)) ↔ _ ∧ p ≠ t.pointer
  simp only [List.mem_filter, decide_eq_true_eq]
  constructor
  · rintro ⟨a, ha, rfl, hkey, hne⟩
    refine ⟨⟨a, ha, rfl, hkey⟩, fun heq => hne ?_⟩
    rw [h.unique.eq ha ht heq]
  · rintro ⟨⟨a, ha, rfl, hkey⟩, hne⟩
    exact ⟨a, ha, rfl, hkey, fun heq => hne (queueKey_pointer heq)⟩

omit ht in
theorem Indexed.parked_demote : (s.demote t).parked = s.parked ∪ {t.pointer} := by
  ext p
  exact h.parkingLotIndex.parked_insert.trans or_comm

omit h ht in
theorem ready_demote : (s.demote t).ready = s.ready \ {t.pointer} := by
  ext p
  by_cases heq : p = t.pointer
  · subst heq
    refine iff_of_false ?_ fun hmem => hmem.2 rfl
    rintro ⟨a, ha, hpointer, hready⟩
    obtain ⟨-, hne⟩ | ⟨b, -, -, rfl⟩ := mem_withStateAt.mp ha
    · exact hne hpointer
    · have hstate := t.timelineState.demoted_ne_ready
      rw [MempoolTransaction.isReady, MempoolTransaction.withState] at hready
      cases hcase : t.timelineState.demoted with
      | ready id => exact hstate id hcase
      | notReady => simp [hcase] at hready
      | nonQualified => simp [hcase] at hready
  · exact (ready_relocate heq).trans ⟨fun hmem => ⟨hmem, heq⟩, And.left⟩

omit h ht in
theorem reorders_park : s.Reorders (s.park t) := by
  unfold park
  split
  · exact .refl s
  · exact ⟨rfl, rfl, rfl, rfl, .refl _, rfl⟩

omit h ht in
theorem queued_park : (s.park t).queued = s.queued := by
  unfold park
  split <;> rfl

omit h ht in
theorem ready_park : (s.park t).ready = s.ready := by
  unfold park
  split <;> rfl

omit ht in
theorem Indexed.parked_park :
    (s.park t).parked = s.parked ∪ {p | p = t.pointer ∧ ¬ t.isReady} := by
  ext p
  unfold TransactionStore.park
  split
  next hready => simp [hready]
  next hready =>
    refine h.parkingLotIndex.parked_insert.trans (or_comm.trans (or_congr_right ?_))
    exact ⟨fun heq => ⟨heq, hready⟩, And.left⟩

end Places

/-! ## The run of an account -/

/-- The sequence numbers from `first` up to `last`, without it. -/
def run (address : AccountAddress) (first last : ℕ) : Set TxnPointer :=
  {p | p.1 = address ∧ first ≤ p.2 ∧ p.2 < last}

theorem run_succ {first last : ℕ} (h : first < last) :
    run address first last = {(address, first)} ∪ run address (first + 1) last := by
  ext ⟨a, q⟩
  simp only [run, Set.mem_ofPred_eq, Set.mem_union, Set.mem_singleton_iff, Prod.mk.injEq]
  grind

theorem run_self {first : ℕ} : run address first first = ∅ := by
  ext p
  simp only [run, Set.mem_ofPred_eq, Set.mem_empty_iff_false, iff_false]
  omega

/-- The transactions of a run are promoted. -/
structure Promotes (s s' : TransactionStore P) (promoted : Set TxnPointer) : Prop where
  reorders : s.Reorders s'
  queued : s'.queued = s.queued ∪ promoted
  parked : s'.parked = s.parked \ promoted
  ready : ∀ p ∉ promoted, p ∈ s'.ready ↔ p ∈ s.ready

theorem Promotes.none (s : TransactionStore P) {first : ℕ} :
    s.Promotes s (run address first first) := by
  rw [run_self]
  exact ⟨.refl s, by simp, by simp, fun _ _ => Iff.rfl⟩

theorem Promotes.trans {s' s'' : TransactionStore P} {first second : Set TxnPointer}
    (h : s.Promotes s' first) (h' : s'.Promotes s'' second) :
    s.Promotes s'' (first ∪ second) where
  reorders := h.reorders.trans h'.reorders
  queued := by rw [h'.queued, h.queued, Set.union_assoc]
  parked := by rw [h'.parked, h.parked, Set.sdiff_sdiff]
  ready p hp := by
    rw [h'.ready p fun hin => hp (Or.inr hin), h.ready p fun hin => hp (Or.inl hin)]

theorem Indexed.promotes {s' : TransactionStore P}
    (h : s.Indexed world s.transactions keepSystem keepExpiration) (ht : t ∈ s.transactions)
    (hs : s.promote t = some s') : s.Promotes s' {t.pointer} :=
  ⟨h.reorders_promote ht hs, h.queued_promote ht hs, h.parked_promote ht hs,
    fun _ hp => h.ready_promote ht hs hp⟩

theorem Indexed.promoteLoop {fuel first last : ℕ} {s' : TransactionStore P}
    (h : s.Indexed world s.transactions keepSystem keepExpiration)
    (hs : TransactionStore.promoteLoop address fuel first s = some (last, s')) :
    s'.Indexed world s'.transactions keepSystem keepExpiration ∧
      s.Promotes s' (run address first last) ∧ first ≤ last ∧
      (∀ q, first ≤ q → q < last → (address, q) ∈ s.stored) ∧
      ((address, last) ∉ s.stored ∨ last = first + fuel) := by
  induction fuel generalizing s first with
  | zero =>
    cases hs
    exact ⟨h, .none _, Nat.le_refl _, fun q hq hq' => absurd hq' (Nat.not_lt.mpr hq), Or.inr rfl⟩
  | succ fuel ih =>
    rw [TransactionStore.promoteLoop] at hs
    cases hget : s.getMempoolTxn (address, first) with
    | none =>
      rw [hget] at hs
      cases hs
      exact ⟨h, .none _, Nat.le_refl _, fun q hq hq' => absurd hq' (Nat.not_lt.mpr hq),
        Or.inl (getMempoolTxn_eq_none.mp hget)⟩
    | some t =>
      rw [hget] at hs
      obtain ⟨promoted, hpromoted, hrest⟩ := Option.bind_eq_some_iff.mp hs
      obtain ⟨next, hnext, hloop⟩ := Option.bind_eq_some_iff.mp hrest
      obtain rfl := checkedSucc_eq_some hnext
      obtain ⟨ht, hpointer⟩ := h.getMempoolTxn_eq_some.mp hget
      have hfirst := h.promotes ht hpromoted
      obtain ⟨hindexed, hpromotes, hle, hstored, hend⟩ := ih (h.promote ht hpromoted) hloop
      rw [hfirst.reorders.stored] at hstored hend
      refine ⟨hindexed, ?_, by omega, fun q hq hq' => ?_, hend.imp_right (by omega)⟩
      · rw [run_succ (Nat.lt_of_succ_le hle), ← hpointer]
        exact hfirst.trans hpromotes
      · obtain rfl | hlt := Nat.eq_or_lt_of_le hq
        · exact ⟨t, ht, hpointer⟩
        · exact hstored q hlt hq'

/-- The loop has enough rounds: a run is not longer than the list of transactions. -/
theorem last_ne {first last : ℕ} (hstored : ∀ q, first ≤ q → q < last → (address, q) ∈ s.stored) :
    last ≠ first + (s.transactions.length + 1) := by
  intro heq
  have hnodup : ((List.range (s.transactions.length + 1)).map
      fun i => ((address, first + i) : TxnPointer)).Nodup := by
    refine List.Nodup.map (fun i j hij => ?_) List.nodup_range
    have hsecond := congrArg Prod.snd hij
    dsimp only at hsecond
    omega
  have hsub : (List.range (s.transactions.length + 1)).map
      (fun i => ((address, first + i) : TxnPointer)) ⊆ s.transactions.map (·.pointer) := by
    intro p hp
    obtain ⟨i, hi, rfl⟩ := List.mem_map.mp hp
    have hlt := List.mem_range.mp hi
    obtain ⟨t, ht, hpointer⟩ := hstored (first + i) (by omega) (by omega)
    exact List.mem_map.mpr ⟨t, ht, hpointer⟩
  have hle := (List.subperm_of_subset hnodup hsub).length_le
  rw [List.length_map, List.length_map, List.length_range] at hle
  omega

theorem Indexed.foldl_park {parking : List (MempoolTransaction P)}
    (h : s.Indexed world s.transactions keepSystem keepExpiration)
    (hparking : ∀ t ∈ parking, t.pointer ∈ s.stored) :
    (parking.foldl TransactionStore.park s).Indexed world
        (parking.foldl TransactionStore.park s).transactions keepSystem keepExpiration ∧
      s.Reorders (parking.foldl TransactionStore.park s) ∧
      (parking.foldl TransactionStore.park s).queued = s.queued ∧
      (parking.foldl TransactionStore.park s).ready = s.ready ∧
      (parking.foldl TransactionStore.park s).parked =
        s.parked ∪ {p | ∃ t ∈ parking, t.pointer = p ∧ ¬ t.isReady} := by
  induction parking generalizing s with
  | nil => exact ⟨h, .refl s, rfl, rfl, by simp⟩
  | cons t parking ih =>
    have hsame : (s.park t).transactions = s.transactions := by
      unfold TransactionStore.park
      split <;> rfl
    have hindexed := h.park (hparking t List.mem_cons_self)
    rw [← hsame] at hindexed
    have hstored : (s.park t).stored = s.stored := reorders_park.stored
    obtain ⟨hfold, hreorders, hqueued, hready, hparked⟩ := ih hindexed fun a ha => by
      rw [hstored]
      exact hparking a (List.mem_cons_of_mem t ha)
    refine ⟨hfold, reorders_park.trans hreorders, hqueued.trans queued_park,
      hready.trans ready_park, hparked.trans ?_⟩
    rw [h.parked_park, Set.union_assoc]
    congr 1
    ext p
    simp only [Set.mem_union, Set.mem_ofPred_eq, List.exists_mem_cons_iff, eq_comm]

/-- The transactions from the account's number on are in the queue up to the first gap, and those
behind it are parked unless they are ready. -/
structure Processes (s s' : TransactionStore P) (address : AccountAddress) (first last : ℕ) :
    Prop where
  reorders : s.Reorders s'
  first_le : first ≤ last
  stored : ∀ q, first ≤ q → q < last → (address, q) ∈ s.stored
  gap : (address, last) ∉ s.stored
  queued : s'.queued = s.queued ∪ run address first last
  parked : s'.parked = (s.parked \ run address first last) ∪
    {p | p ∈ s.stored ∧ p.1 = address ∧ last < p.2 ∧ p ∉ s.ready}
  ready : ∀ p ∉ run address first last, p ∈ s'.ready ↔ p ∈ s.ready

theorem Indexed.processReadyTransactions {info : AccountSequenceInfo} {s' : TransactionStore P}
    (h : s.Indexed world s.transactions keepSystem keepExpiration)
    (hs : s.processReadyTransactions address info = some s') :
    s'.Indexed world s'.transactions keepSystem keepExpiration ∧
      ∃ last, s.Processes s' address info.minSeq last := by
  obtain ⟨⟨last, promoted⟩, hloop, heq⟩ := Option.bind_eq_some_iff.mp hs
  cases heq
  obtain ⟨hindexed, hpromotes, hle, hstored, hend⟩ := h.promoteLoop hloop
  have hgap := hend.resolve_right (last_ne hstored)
  have hmem : ∀ t, t ∈ (promoted.accountTransactions address).filter (last < ·.sequenceNumber) ↔
      t ∈ promoted.transactions ∧ t.getSender = address ∧ last < t.sequenceNumber := by
    intro t
    simp only [accountTransactions, List.mem_filter, decide_eq_true_eq, and_assoc]
  obtain ⟨hfold, hreorders, hqueued, hready, hparked⟩ :=
    hindexed.foldl_park fun t ht => ⟨t, ((hmem t).mp ht).1, rfl⟩
  refine ⟨hfold, last, hpromotes.reorders.trans hreorders, hle, hstored, hgap,
    hqueued.trans hpromotes.queued, ?_, fun p hp => ?_⟩
  · rw [hparked, hpromotes.parked, ← hpromotes.reorders.stored]
    congr 1
    ext p
    simp only [hmem, Set.mem_ofPred_eq]
    -- behind the gap the states are the old ones
    have hstate : last < p.2 → (p ∈ s.ready ↔ p ∈ promoted.ready) := by
      intro hlt
      refine (hpromotes.ready p fun hrun => ?_).symm
      exact Nat.lt_asymm hlt hrun.2.2
    constructor
    · rintro ⟨t, ⟨ht, haddress, hlt⟩, rfl, hready⟩
      refine ⟨⟨t, ht, rfl⟩, haddress, hlt, fun hin => hready ?_⟩
      obtain ⟨a, ha, hpointer, haready⟩ := (hstate hlt).mp hin
      rw [← hindexed.unique.eq ha ht hpointer]
      exact haready
    · rintro ⟨⟨t, ht, rfl⟩, haddress, hlt, hready⟩
      refine ⟨t, ⟨ht, haddress, hlt⟩, rfl, fun htready => hready ?_⟩
      exact (hstate hlt).mpr ⟨t, ht, rfl, htready⟩
  · rw [hready]
    exact hpromotes.ready p hp

end TransactionStore

end Anthemius.Mempool

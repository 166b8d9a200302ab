import Anthemius.MempoolGarbage

/-!
# The calls of the mempool

Each call is a few removals, perhaps a new transaction, and perhaps a pass over the account that
finds out what is ready.
-/
namespace Anthemius.Mempool

namespace TransactionStore
variable {P : Type} {s s' : TransactionStore P} {world : MempoolTransaction P → Prop}
  {txn : MempoolTransaction P} {choice : ℕ} {status : MempoolStatus}

/-! ## Room for a transaction -/

theorem Indexed.evict (h : s.Consistent world) (choice : ℕ) :
    (s.evict choice).Consistent world ∧
      ((∃ p ∈ s.parked, s.Removes (s.evict choice) {p}) ∨
        s.parked = ∅ ∧ s.evict choice = s) := by
  rw [TransactionStore.evict]
  cases hpop : s.parkingLotIndex.getPoppable choice with
  | none =>
    refine ⟨h, Or.inr ⟨Set.eq_empty_of_forall_notMem fun p hp => ?_, rfl⟩⟩
    obtain ⟨q, hq⟩ := h.parkingLotIndex.exists_getPoppable hp choice
    rw [hpop] at hq
    cases hq
  | some p =>
    have hp : p ∈ s.parked := ParkingLotIndex.getPoppable_parked hpop
    obtain ⟨t, ht, rfl⟩ := h.parked_subset_stored hp
    rw [Option.bind_some, h.getMempoolTxn_eq_some.mpr ⟨ht, rfl⟩]
    exact ⟨h.discard ht, Or.inl ⟨t.pointer, hp, h.removes_discard ht⟩⟩

/-- The store in which there is room for the transaction, if eviction can make it. -/
def roomFor (s : TransactionStore P) (txn : MempoolTransaction P) (choice : ℕ) :
    TransactionStore P :=
  if s.isFull ∧ s.checkTxnReady txn txn.accountSequenceNumberType.minSeq = some true
  then s.evict choice else s

theorem checkIsFullAfterEviction_eq {full : Bool}
    (hs : s.checkIsFullAfterEviction txn txn.accountSequenceNumberType.minSeq choice =
      some (full, s')) : s' = s.roomFor txn choice ∧ full = s'.isFull := by
  obtain ⟨evicts, hevicts, heq⟩ := Option.map_eq_some_iff.mp hs
  cases heq
  refine ⟨?_, rfl⟩
  rw [roomFor]
  by_cases hfull : s.isFull = true
  · rw [if_pos hfull] at hevicts
    rw [hevicts]
    cases evicts <;> simp [hfull]
  · rw [if_neg hfull] at hevicts
    cases hevicts
    simp [hfull]

theorem roomFor_of_not_isFull (h : ¬ s.isFull = true) : s.roomFor txn choice = s :=
  if_neg fun hboth => h hboth.1

theorem isFull_of_roomFor (h : (s.roomFor txn choice).isFull = true) : s.isFull = true := by
  by_contra hnot
  rw [roomFor_of_not_isFull hnot] at h
  exact hnot h

theorem Indexed.roomFor (h : s.Consistent world) (txn : MempoolTransaction P) (choice : ℕ) :
    (s.roomFor txn choice).Consistent world ∧
      ∃ out ⊆ s.parked, s.Removes (s.roomFor txn choice) out := by
  rw [TransactionStore.roomFor]
  split
  next =>
    obtain ⟨hindexed, ⟨p, hp, hremoves⟩ | ⟨-, heq⟩⟩ := h.evict choice
    · exact ⟨hindexed, {p}, Set.singleton_subset_iff.mpr hp, hremoves⟩
    · rw [heq]
      exact ⟨h, ∅, Set.empty_subset _, .refl s⟩
  next => exact ⟨h, ∅, Set.empty_subset _, .refl s⟩

/-! ## Insertion -/

/-- The store without the committed transactions of the account. -/
def cleanFor (s : TransactionStore P) (txn : MempoolTransaction P) (choice : ℕ) :
    TransactionStore P :=
  (s.roomFor txn choice).cleanCommittedTransactions txn.getSender
    txn.accountSequenceNumberType.minSeq

theorem insertNew_cases (hs : s.insertNew txn choice = some (status, s')) :
    (status.code = .mempoolIsFull ∧ (s.roomFor txn choice).isFull ∧ s' = s.roomFor txn choice) ∨
    (status.code = .tooManyTransactions ∧ ¬ (s.roomFor txn choice).isFull ∧
      (s.cleanFor txn choice).capacityPerUser ≤
        ((s.cleanFor txn choice).accountTransactions txn.getSender).length ∧
      s' = s.cleanFor txn choice) ∨
    (status.code = .accepted ∧ ¬ (s.roomFor txn choice).isFull ∧
      ((s.cleanFor txn choice).accountTransactions txn.getSender).length <
        (s.cleanFor txn choice).capacityPerUser ∧
      ((s.cleanFor txn choice).store txn).processReadyTransactions txn.getSender
        txn.accountSequenceNumberType = some s') := by
  obtain ⟨⟨full, room⟩, hroom, hrest⟩ := Option.bind_eq_some_iff.mp hs
  obtain ⟨rfl, rfl⟩ := checkIsFullAfterEviction_eq hroom
  dsimp only at hrest
  split at hrest
  next hfull =>
    cases hrest
    exact Or.inl ⟨rfl, hfull, rfl⟩
  next hfull =>
    split at hrest
    next hmany =>
      cases hrest
      exact Or.inr (Or.inl ⟨rfl, hfull, hmany, rfl⟩)
    next hmany =>
      obtain ⟨processed, hprocessed, heq⟩ := Option.bind_eq_some_iff.mp hrest
      cases heq
      exact Or.inr (Or.inr ⟨rfl, hfull, Nat.not_le.mp hmany, hprocessed⟩)

/-- The transaction can only differ from the stored one by a higher gas price. -/
def Updates (txn current : MempoolTransaction P) : Prop :=
  current.txn.payload = txn.txn.payload ∧
    current.txn.expirationTimestampSecs = txn.txn.expirationTimestampSecs ∧
    current.txn.maxGasAmount = txn.txn.maxGasAmount ∧ current.getGasPrice < txn.getGasPrice

/-- The store without an older version of the transaction. -/
inductive Replaces (s : TransactionStore P) (txn : MempoolTransaction P) :
    TransactionStore P → Prop
  | fresh (h : txn.pointer ∉ s.stored) : Replaces s txn s
  | older (current : MempoolTransaction P) (h : s.getMempoolTxn txn.pointer = some current)
    (hupdates : Updates txn current) : Replaces s txn (s.discard current)

theorem insert_cases [DecidableEq P] (hs : s.insert txn choice = some (status, s')) :
    (s' = s ∧ ∃ current, s.getMempoolTxn txn.pointer = some current ∧ ¬ Updates txn current) ∨
    ∃ s₁, s.Replaces txn s₁ ∧ s₁.insertNew txn choice = some (status, s') := by
  rw [TransactionStore.insert] at hs
  cases hget : s.getMempoolTxn txn.pointer with
  | none =>
    rw [hget] at hs
    exact Or.inr ⟨s, .fresh (getMempoolTxn_eq_none.mp hget), hs⟩
  | some current =>
    rw [hget] at hs
    dsimp only at hs
    split_ifs at hs with hpayload hexpiration hgas hlower hhigher
    · cases hs
      exact Or.inl ⟨rfl, current, rfl, fun hupdates => hpayload hupdates.1⟩
    · cases hs
      exact Or.inl ⟨rfl, current, rfl, fun hupdates => hexpiration hupdates.2.1⟩
    · cases hs
      exact Or.inl ⟨rfl, current, rfl, fun hupdates => hgas hupdates.2.2.1⟩
    · have hupdates : Updates txn current :=
        ⟨not_not.mp hpayload, not_not.mp hexpiration, not_not.mp hgas, hlower⟩
      exact Or.inr ⟨s.discard current, .older current hget hupdates, hs⟩
    · cases hs
      exact Or.inl ⟨rfl, current, rfl, fun hupdates => hlower hupdates.2.2.2⟩
    · cases hs
      exact Or.inl ⟨rfl, current, rfl, fun hupdates => hlower hupdates.2.2.2⟩

theorem Replaces.removes {s₁ : TransactionStore P} (hreplaces : s.Replaces txn s₁)
    (h : s.Consistent world) : s₁.Consistent world ∧ s.Removes s₁ {txn.pointer} := by
  cases hreplaces with
  | fresh hnot => exact ⟨h, h.removes_self hnot⟩
  | older current hget =>
    obtain ⟨ht, hpointer⟩ := h.getMempoolTxn_eq_some.mp hget
    rw [← hpointer]
    exact ⟨h.discard ht, h.removes_discard ht⟩

theorem Indexed.cleanFor (h : s.Consistent world) (txn : MempoolTransaction P) (choice : ℕ) :
    (s.cleanFor txn choice).Consistent world ∧ ∃ out ⊆ s.parked,
      s.Removes (s.cleanFor txn choice)
        (out ∪ below txn.getSender txn.accountSequenceNumberType.minSeq) := by
  obtain ⟨hroom, out, hout, hremoves⟩ := h.roomFor txn choice
  exact ⟨hroom.clean _ _, out, hout, hremoves.trans (hroom.removes_clean _ _)⟩

theorem Indexed.length_cleanFor (h : s.Consistent world)
    (hfull : ¬ (s.roomFor txn choice).isFull = true) :
    (s.cleanFor txn choice).transactions.length < (s.cleanFor txn choice).capacity := by
  obtain ⟨hroom, -⟩ := h.roomFor txn choice
  have hremoves := hroom.removes_clean txn.getSender txn.accountSequenceNumberType.minSeq
  have hle : (s.cleanFor txn choice).transactions.length ≤
      (s.roomFor txn choice).transactions.length := by
    refine (hroom.clean _ _).unique.length_le fun t ht => ?_
    exact ⟨t, ((hremoves.transactions t).mp ht).1, rfl⟩
  have hcapacity : (s.cleanFor txn choice).capacity = (s.roomFor txn choice).capacity :=
    congrArg Prod.fst hremoves.shrinks.limits
  have hlength := hroom.length_systemTtlIndex
  rw [isFull, Bool.or_eq_true, not_or, decide_eq_true_eq, decide_eq_true_eq] at hfull
  omega

/-- A transaction comes in where none was. -/
structure Stores (s s' : TransactionStore P) (txn : MempoolTransaction P) : Prop where
  transactions : ∀ t, t ∈ s'.transactions ↔ t = txn ∨ t ∈ s.transactions
  numbers : s'.sequenceNumbers = Function.update s.sequenceNumbers txn.getSender
    (some txn.accountSequenceNumberType.minSeq)
  queued : s'.queued = s.queued
  parked : s'.parked = s.parked
  timeline : s'.timelineIndex = s.timelineIndex
  limits : s'.limits = s.limits

theorem Stores.stored (h : s.Stores s' txn) : s'.stored = {txn.pointer} ∪ s.stored := by
  ext p
  constructor
  · rintro ⟨t, ht, rfl⟩
    obtain rfl | ht := (h.transactions t).mp ht
    · exact Or.inl rfl
    · exact Or.inr ⟨t, ht, rfl⟩
  · rintro (rfl | ⟨t, ht, rfl⟩)
    · exact ⟨txn, (h.transactions txn).mpr (Or.inl rfl), rfl⟩
    · exact ⟨t, (h.transactions t).mpr (Or.inr ht), rfl⟩

theorem Stores.mem_ready (h : s.Stores s' txn) (hstate : txn.isReady = false) (p : TxnPointer) :
    p ∈ s'.ready ↔ p ∈ s.ready := by
  constructor
  · rintro ⟨t, ht, rfl, hready⟩
    obtain rfl | ht := (h.transactions t).mp ht
    · rw [hstate] at hready
      cases hready
    · exact ⟨t, ht, rfl, hready⟩
  · rintro ⟨t, ht, hrest⟩
    exact ⟨t, (h.transactions t).mpr (Or.inr ht), hrest⟩

theorem Indexed.stores (h : s.Consistent world) (hworld : world txn)
    (hfresh : txn.pointer ∉ s.stored) :
    (s.store txn).Consistent world ∧ s.Stores (s.store txn) txn := by
  have hne : ∀ a ∈ s.transactions, a.pointer ≠ txn.pointer := fun a ha heq => hfresh ⟨a, ha, heq⟩
  have hlist : (s.store txn).transactions = txn :: s.transactions :=
    congrArg (txn :: ·) (without_of_not_mem hne)
  have hmem : ∀ t, t ∈ (s.store txn).transactions ↔ t = txn ∨ t ∈ s.transactions := by
    intro t
    rw [hlist, List.mem_cons]
  have hindexed := h.store hworld trivial trivial hne
  rw [← hlist] at hindexed
  refine ⟨hindexed, hmem, rfl, ?_, rfl, rfl, rfl⟩
  ext p
  constructor
  · rintro ⟨t, ht, rfl, hkey⟩
    obtain rfl | ht := (hmem t).mp ht
    · -- its key is not in the queue, since all keys there are of stored transactions
      obtain ⟨a, ha, heq⟩ := h.priority _ hkey
      exact absurd (queueKey_pointer heq) (hne a ha)
    · exact ⟨t, ht, rfl, hkey⟩
  · rintro ⟨t, ht, hrest⟩
    exact ⟨t, (hmem t).mpr (Or.inr ht), hrest⟩

/-- How an insertion ends that was not decided by an older version. -/
inductive Inserts (s : TransactionStore P) (txn : MempoolTransaction P) (status : MempoolStatus) :
    TransactionStore P → Prop
  | full {s' : TransactionStore P} (out : Set TxnPointer) (hout : out ⊆ s.parked)
    (hcode : status.code = .mempoolIsFull) (hfull : s.isFull) (hremoves : s.Removes s' out) :
    Inserts s txn status s'
  | tooMany {s' : TransactionStore P} (out : Set TxnPointer) (hout : out ⊆ s.parked)
    (hcode : status.code = .tooManyTransactions)
    (hremoves : s.Removes s' (out ∪ below txn.getSender txn.accountSequenceNumberType.minSeq))
    (hmany : s'.capacityPerUser ≤ (s'.accountTransactions txn.getSender).length) :
    Inserts s txn status s'
  | accepted {cleaned stored s' : TransactionStore P} (out : Set TxnPointer) (last : ℕ)
    (hout : out ⊆ s.parked) (hcode : status.code = .accepted)
    (hremoves :
      s.Removes cleaned (out ∪ below txn.getSender txn.accountSequenceNumberType.minSeq))
    (hroom : cleaned.transactions.length < cleaned.capacity)
    (hcapacity : (cleaned.accountTransactions txn.getSender).length < cleaned.capacityPerUser)
    (hstores : cleaned.Stores stored txn)
    (hprocesses :
      stored.Processes s' txn.getSender txn.accountSequenceNumberType.minSeq last) :
    Inserts s txn status s'

theorem Indexed.inserts (h : s.Consistent world) (hworld : world txn)
    (hfresh : txn.pointer ∉ s.stored) (hs : s.insertNew txn choice = some (status, s')) :
    s'.Consistent world ∧ s.Inserts txn status s' := by
  obtain ⟨hcleaned, out, hout, hremoves⟩ := h.cleanFor txn choice
  obtain ⟨hcode, hfull, rfl⟩ | ⟨hcode, -, hmany, rfl⟩ | ⟨hcode, hfull, hcapacity, hprocess⟩ :=
    insertNew_cases hs
  · obtain ⟨hroom, out, hout, hremoves⟩ := h.roomFor txn choice
    exact ⟨hroom, .full out hout hcode (isFull_of_roomFor hfull) hremoves⟩
  · exact ⟨hcleaned, .tooMany out hout hcode hremoves hmany⟩
  · have hfresh' : txn.pointer ∉ (s.cleanFor txn choice).stored :=
      fun hin => hfresh (hremoves.shrinks.subset hin)
    obtain ⟨hstored, hstores⟩ := hcleaned.stores hworld hfresh'
    obtain ⟨hprocessed, last, hprocesses⟩ := hstored.processReadyTransactions hprocess
    exact ⟨hprocessed, .accepted out last hout hcode hremoves (h.length_cleanFor hfull) hcapacity
      hstores hprocesses⟩

/-! ## Commits and rejections -/

def withNumber (s : TransactionStore P) (address : AccountAddress) (number : ℕ) :
    TransactionStore P :=
  { s with sequenceNumbers := Function.update s.sequenceNumbers address (some number) }

theorem withNumber_self {address : AccountAddress} {number : ℕ} :
    (s.withNumber address number).sequenceNumbers address = some number :=
  Function.update_self ..

theorem withNumber_of_ne {address address' : AccountAddress} {number : ℕ} (h : address' ≠ address) :
    (s.withNumber address number).sequenceNumbers address' = s.sequenceNumbers address' :=
  Function.update_of_ne h ..

/-- The account's number after a commit. -/
def committedNumber (s : TransactionStore P) (account : AccountAddress) (sequenceNumber : ℕ) : ℕ :=
  max ((s.sequenceNumbers account).getD 0) (sequenceNumber + 1)

/-- The account gets a new number, what is below it is removed, and the rest is looked at. -/
def Commits (s s' : TransactionStore P) (account : AccountAddress) (number : ℕ) : Prop :=
  ∃ cleaned last, (s.withNumber account number).Removes cleaned (below account number) ∧
    cleaned.Processes s' account number last

theorem Indexed.commits {account : AccountAddress} {sequenceNumber : ℕ} (h : s.Consistent world)
    (hs : s.commitTransaction account sequenceNumber = some s') :
    s'.Consistent world ∧ s.Commits s' account (s.committedNumber account sequenceNumber) := by
  obtain ⟨next, hnext, hrest⟩ := Option.bind_eq_some_iff.mp hs
  obtain rfl := checkedSucc_eq_some hnext
  have hnumbered : (s.withNumber account (s.committedNumber account sequenceNumber)).Consistent
      world := h.withMaps _ _
  obtain ⟨hprocessed, last, hprocesses⟩ :=
    (hnumbered.clean _ _).processReadyTransactions hrest
  exact ⟨hprocessed, _, last, hnumbered.removes_clean _ _, hprocesses⟩

theorem Indexed.rejects (h : s.Consistent world) (account : AccountAddress) (sequenceNumber : ℕ)
    (hash : HashValue) :
    (s.rejectTransaction account sequenceNumber hash).Consistent world ∧
      (s.rejectTransaction account sequenceNumber hash = s ∨
        s.hashIndex hash = some (account, sequenceNumber) ∧ (account, sequenceNumber) ∈ s.stored ∧
          s.Removes (s.rejectTransaction account sequenceNumber hash)
            {(account, sequenceNumber)}) := by
  rw [rejectTransaction]
  split
  next indexed hindex =>
    split
    next heq =>
      subst heq
      split
      next t hget =>
        obtain ⟨ht, hpointer⟩ := h.getMempoolTxn_eq_some.mp hget
        rw [← hpointer] at hindex ⊢
        exact ⟨h.discard ht, Or.inr ⟨hindex, ⟨t, ht, rfl⟩, h.removes_discard ht⟩⟩
      next => exact ⟨h, Or.inl rfl⟩
    next => exact ⟨h, Or.inl rfl⟩
  next => exact ⟨h, Or.inl rfl⟩

end TransactionStore

end Anthemius.Mempool

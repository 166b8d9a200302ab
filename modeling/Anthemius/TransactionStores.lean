import Anthemius.MempoolIndexes
import Mathlib.Data.Prod.Lex

/-!
# The transaction store of the mempool

The maps of all accounts are one list, with one transaction for an account and a sequence number.
Metrics, logs and the times they use are left out. The random choice of the parking lot is an
argument.
-/
namespace Anthemius.Mempool

inductive MempoolStatusCode
  | accepted
  | invalidUpdate
  | mempoolIsFull
  | tooManyTransactions
  deriving DecidableEq

structure MempoolStatus where
  code : MempoolStatusCode
  message : String

structure MempoolConfig where
  capacity : ℕ
  capacityBytes : ℕ
  capacityPerUser : ℕ
  sharedMempoolMaxBatchBytes : ℕ
  broadcastBuckets : List ℕ

structure TransactionStore (P : Type) where
  transactions : List (MempoolTransaction P)
  sequenceNumbers : AccountAddress → Option ℕ
  priorityIndex : List OrderedQueueKey
  expirationTimeIndex : List TTLOrderingKey
  systemTtlIndex : List TTLOrderingKey
  timelineIndex : MultiBucketTimelineIndex
  parkingLotIndex : ParkingLotIndex
  hashIndex : HashValue → Option TxnPointer
  sizeBytes : ℕ
  capacity : ℕ
  capacityBytes : ℕ
  capacityPerUser : ℕ
  maxBatchBytes : ℕ
  overheadBytes : ℕ

namespace TransactionStore
variable {P : Type}

def new (config : MempoolConfig) (overheadBytes : ℕ) : Option (TransactionStore P) := do
  let timelineIndex ← (MultiBucketTimelineIndex.new config.broadcastBuckets).toOption
  some {
    transactions := []
    sequenceNumbers := fun _ => none
    priorityIndex := []
    expirationTimeIndex := []
    systemTtlIndex := []
    timelineIndex := timelineIndex
    parkingLotIndex := .new
    hashIndex := fun _ => none
    sizeBytes := 0
    capacity := config.capacity
    capacityBytes := config.capacityBytes
    capacityPerUser := config.capacityPerUser
    maxBatchBytes := config.sharedMempoolMaxBatchBytes
    overheadBytes := overheadBytes }

variable (s : TransactionStore P)

def getMempoolTxn (txn : TxnPointer) : Option (MempoolTransaction P) :=
  s.transactions.find? (·.pointer == txn)

def accountTransactions (address : AccountAddress) : List (MempoolTransaction P) :=
  s.transactions.filter (·.getSender = address)

/-! ## Removal -/

/-- Only from the map of the account. -/
def takeOut (txn : TxnPointer) : TransactionStore P :=
  { s with transactions := s.transactions.filter (·.pointer ≠ txn) }

/-- From all indexes, after the transaction was taken out of the map of its account. An account
without transactions loses its sequence number. -/
def indexRemove (txn : MempoolTransaction P) : TransactionStore P :=
  { s with
    systemTtlIndex := s.systemTtlIndex.filter (· ≠ txn.systemTtlKey)
    expirationTimeIndex := s.expirationTimeIndex.filter (· ≠ txn.expirationTimeKey)
    priorityIndex := s.priorityIndex.filter (· ≠ txn.queueKey)
    timelineIndex := s.timelineIndex.remove txn.rankingScore txn.timelineState
    parkingLotIndex := s.parkingLotIndex.remove txn.pointer
    hashIndex := Function.update s.hashIndex txn.getCommittedHash none
    sizeBytes := s.sizeBytes - txn.getEstimatedBytes s.overheadBytes
    sequenceNumbers :=
      if (s.accountTransactions txn.getSender).isEmpty
      then Function.update s.sequenceNumbers txn.getSender none else s.sequenceNumbers }

def discard (txn : MempoolTransaction P) : TransactionStore P :=
  (s.takeOut txn.pointer).indexRemove txn

/-- The transactions of the account below the sequence number are taken out together. -/
def cleanCommittedTransactions (address : AccountAddress) (sequenceNumber : ℕ) :
    TransactionStore P :=
  let txnsForRemoval := (s.accountTransactions address).filter (·.sequenceNumber < sequenceNumber)
  txnsForRemoval.foldl indexRemove { s with
    transactions := s.transactions.filter fun t =>
      ¬ (t.getSender = address ∧ t.sequenceNumber < sequenceNumber) }

def rejectTransaction (account : AccountAddress) (sequenceNumber : ℕ) (hash : HashValue) :
    TransactionStore P :=
  match s.hashIndex hash with
  | some indexed =>
    if indexed = (account, sequenceNumber) then
      match s.getMempoolTxn (account, sequenceNumber) with
      | some txn => s.discard txn
      | none => s
    else s
  | none => s

/-! ## Ready transactions -/

def setTimelineState (txn : TxnPointer) (state : TimelineState) : TransactionStore P :=
  { s with transactions := s.transactions.map fun t =>
      if t.pointer = txn then t.withState state else t }

def timelineInsert (txn : MempoolTransaction P) : Option (TransactionStore P) := do
  let inserted ← s.timelineIndex.insert txn.rankingScore txn.pointer
  some ({ s with timelineIndex := inserted.2 }.setTimelineState txn.pointer (.ready inserted.1))

/-- One round of the loop over the sequential transactions. -/
def promote (txn : MempoolTransaction P) : Option (TransactionStore P) :=
  let queued : TransactionStore P :=
    { s with priorityIndex := s.priorityIndex.insert txn.queueKey }
  (if txn.timelineState = .notReady then queued.timelineInsert txn else some queued).map
    fun broadcast =>
      { broadcast with parkingLotIndex := broadcast.parkingLotIndex.remove txn.pointer }

/-- The first sequence number without a transaction ends the loop. -/
def promoteLoop (address : AccountAddress) :
    ℕ → ℕ → TransactionStore P → Option (ℕ × TransactionStore P)
  | 0, minSeq, s => some (minSeq, s)
  | fuel + 1, minSeq, s =>
    match s.getMempoolTxn (address, minSeq) with
    | none => some (minSeq, s)
    | some txn => do
      let promoted ← s.promote txn
      let next ← checkedSucc minSeq
      promoteLoop address fuel next promoted

def park (txn : MempoolTransaction P) : TransactionStore P :=
  if txn.isReady then s else { s with parkingLotIndex := s.parkingLotIndex.insert txn.pointer }

def processReadyTransactions (address : AccountAddress) (sequenceInfo : AccountSequenceInfo) :
    Option (TransactionStore P) := do
  let (minSeq, promoted) ←
    promoteLoop address (s.transactions.length + 1) sequenceInfo.minSeq s
  some (((promoted.accountTransactions address).filter (minSeq < ·.sequenceNumber)).foldl park
    promoted)

def commitTransaction (account : AccountAddress) (sequenceNumber : ℕ) :
    Option (TransactionStore P) := do
  let currentSeqNumber := (s.sequenceNumbers account).getD 0
  let next ← checkedSucc sequenceNumber
  let newSeqNumber := max currentSeqNumber next
  let numbered : TransactionStore P :=
    { s with sequenceNumbers := Function.update s.sequenceNumbers account (some newSeqNumber) }
  (numbered.cleanCommittedTransactions account newSeqNumber).processReadyTransactions account
    (.sequential newSeqNumber)

/-! ## Insertion -/

def isFull : Bool := s.capacity ≤ s.systemTtlIndex.length || s.capacityBytes ≤ s.sizeBytes

/-- A first transaction with another sequence number is a panic. -/
def checkTxnReady (txn : MempoolTransaction P) (currSequenceNumber : ℕ) : Option Bool :=
  if txn.sequenceNumber = currSequenceNumber then some true
  else if txn.sequenceNumber = 0 then none
  else some ((s.getMempoolTxn (txn.getSender, txn.sequenceNumber - 1)).any (·.isReady))

def evict (choice : ℕ) : TransactionStore P :=
  match (s.parkingLotIndex.getPoppable choice).bind s.getMempoolTxn with
  | some txn => s.discard txn
  | none => s

/-- A parked transaction makes room for one that is ready. -/
def checkIsFullAfterEviction (txn : MempoolTransaction P) (currSequenceNumber choice : ℕ) :
    Option (Bool × TransactionStore P) :=
  (if s.isFull then s.checkTxnReady txn currSequenceNumber else some false).map fun evicts =>
    let evicted := if evicts then s.evict choice else s
    (evicted.isFull, evicted)

def store (txn : MempoolTransaction P) : TransactionStore P :=
  { s with
    systemTtlIndex := s.systemTtlIndex.insert txn.systemTtlKey
    expirationTimeIndex := s.expirationTimeIndex.insert txn.expirationTimeKey
    hashIndex := Function.update s.hashIndex txn.getCommittedHash (some txn.pointer)
    transactions := txn :: s.transactions.filter (·.pointer ≠ txn.pointer)
    sequenceNumbers := Function.update s.sequenceNumbers txn.getSender
      (some txn.accountSequenceNumberType.minSeq)
    sizeBytes := s.sizeBytes + txn.getEstimatedBytes s.overheadBytes }

/-- Once no other version is there. -/
def insertNew (txn : MempoolTransaction P) (choice : ℕ) :
    Option (MempoolStatus × TransactionStore P) := do
  let minSeq := txn.accountSequenceNumberType.minSeq
  let (full, s) ← s.checkIsFullAfterEviction txn minSeq choice
  if full then
    let size := s.systemTtlIndex.length
    let capacity := s.capacity
    some (⟨.mempoolIsFull, s!"Mempool is full. Mempool size: {size}, Capacity: {capacity}"⟩, s)
  else
    let s := s.cleanCommittedTransactions txn.getSender minSeq
    let stored := (s.accountTransactions txn.getSender).length
    let capacity := s.capacityPerUser
    if capacity ≤ stored then
      some (⟨.tooManyTransactions, "Mempool over capacity for account. Number of transactions " ++
        s!"from account: {stored} Capacity per account: {capacity}"⟩, s)
    else do
      let s ← (s.store txn).processReadyTransactions txn.getSender txn.accountSequenceNumberType
      some (⟨.accepted, ""⟩, s)

/-- Another version of a stored transaction can only raise the gas price. -/
def insert [DecidableEq P] (txn : MempoolTransaction P) (choice : ℕ) :
    Option (MempoolStatus × TransactionStore P) :=
  match s.getMempoolTxn txn.pointer with
  | some current =>
    if current.txn.payload ≠ txn.txn.payload then
      some (⟨.invalidUpdate, "Transaction already in mempool with a different payload"⟩, s)
    else if current.txn.expirationTimestampSecs ≠ txn.txn.expirationTimestampSecs then
      some (⟨.invalidUpdate,
        "Transaction already in mempool with a different expiration timestamp"⟩, s)
    else if current.txn.maxGasAmount ≠ txn.txn.maxGasAmount then
      some (⟨.invalidUpdate, "Transaction already in mempool with a different max gas amount"⟩, s)
    else if current.getGasPrice < txn.getGasPrice then (s.discard current).insertNew txn choice
    else if txn.getGasPrice < current.getGasPrice then
      some (⟨.invalidUpdate, "Transaction already in mempool with a higher gas price"⟩, s)
    else some (⟨.accepted, ""⟩, s)
  | none => s.insertNew txn choice

/-! ## Garbage collection -/

/-- A transaction behind an expired one is not ready. -/
def demote (txn : MempoolTransaction P) : TransactionStore P :=
  { s with
    parkingLotIndex := s.parkingLotIndex.insert txn.pointer
    priorityIndex := s.priorityIndex.filter (· ≠ txn.queueKey)
    timelineIndex := s.timelineIndex.remove txn.rankingScore txn.timelineState
    }.setTimelineState txn.pointer txn.timelineState.demoted

/-- The transactions up to the next expired one of the account are parked. -/
def gcStep (key : TTLOrderingKey) (next : Option TTLOrderingKey) : TransactionStore P :=
  let following := (s.accountTransactions key.address).filter fun t =>
    key.sequenceNumber < t.sequenceNumber ∧ ∀ nextKey ∈ next,
      nextKey.address = key.address → t.sequenceNumber < nextKey.sequenceNumber
  let parked := following.foldl demote s
  match parked.getMempoolTxn key.pointer with
  | some txn => parked.discard txn
  | none => parked

def gcLoop : List TTLOrderingKey → TransactionStore P → TransactionStore P
  | [], s => s
  | key :: rest, s => gcLoop rest (s.gcStep key rest.head?)

/-- The expired keys are ordered by account and sequence number. -/
def sortKeys (keys : List TTLOrderingKey) : List TTLOrderingKey :=
  keys.mergeSort fun a b => toLex a.pointer ≤ toLex b.pointer

def gc (now : ℕ) (bySystemTtl : Bool) : TransactionStore P :=
  if bySystemTtl then
    gcLoop (sortKeys (s.systemTtlIndex.filter (·.isExpired now)))
      { s with systemTtlIndex := s.systemTtlIndex.filter (!·.isExpired now) }
  else
    gcLoop (sortKeys (s.expirationTimeIndex.filter (·.isExpired now)))
      { s with expirationTimeIndex := s.expirationTimeIndex.filter (!·.isExpired now) }

/-! ## Reading the timeline -/

def saturatingAdd (a b : ℕ) : ℕ := min (a + b) (2 ^ 64 - 1)

/-- What is read so far: the transactions, their bytes, and the last id of the bucket. -/
structure Batch (P : Type) where
  txns : List (SignedTransaction P)
  totalBytes : ℕ
  lastTimelineId : ℕ

/-- A transaction that does not fit ends the bucket. -/
def readBucket : List TxnPointer → Batch P → Batch P
  | [], batch => batch
  | pointer :: rest, batch =>
    match s.getMempoolTxn pointer with
    | some txn =>
      let bytes := saturatingAdd batch.totalBytes txn.txn.rawTxnBytesLen
      if s.maxBatchBytes < bytes then batch
      else
        readBucket rest
          { txns := batch.txns ++ [txn.txn]
            totalBytes := bytes
            lastTimelineId :=
              match txn.timelineState with
              | .ready timelineId => timelineId
              | .notReady | .nonQualified => batch.lastTimelineId }
    | none => readBucket rest batch

/-- From the last bucket to the first, with the ids of the buckets in the same order. -/
def readBuckets : List (List TxnPointer × ℕ) → List (SignedTransaction P) → ℕ →
    List (SignedTransaction P) × List ℕ
  | [], txns, _ => (txns, [])
  | (bucket, timelineId) :: rest, txns, totalBytes =>
    let batch := s.readBucket bucket ⟨txns, totalBytes, timelineId⟩
    let remaining := readBuckets rest batch.txns batch.totalBytes
    (remaining.1, batch.lastTimelineId :: remaining.2)

def readTimeline (timelineId : List ℕ) (count : ℕ) :
    Option (List (SignedTransaction P) × List ℕ) := do
  let buckets ← s.timelineIndex.readTimeline timelineId count
  let read := s.readBuckets (buckets.zip timelineId).reverse [] 0
  some (read.1, read.2.reverse)

def timelineRange (startEndPairs : List (ℕ × ℕ)) : Option (List (SignedTransaction P)) := do
  let pointers ← s.timelineIndex.timelineRange startEndPairs
  some (pointers.filterMap fun pointer => (s.getMempoolTxn pointer).map (·.txn))

end TransactionStore

/-! ## Runs -/

inductive StoreCall (P : Type)
  | insert (txn : MempoolTransaction P) (choice : ℕ)
  | commitTransaction (account : AccountAddress) (sequenceNumber : ℕ)
  | rejectTransaction (account : AccountAddress) (sequenceNumber : ℕ) (hash : HashValue)
  | readTimeline (timelineId : List ℕ) (count : ℕ)
  | gc (now : ℕ) (bySystemTtl : Bool)

def TransactionStore.perform {P : Type} [DecidableEq P] (s : TransactionStore P) :
    StoreCall P → Option (TransactionStore P)
  | .insert txn choice => (s.insert txn choice).map Prod.snd
  | .commitTransaction account sequenceNumber => s.commitTransaction account sequenceNumber
  | .rejectTransaction account sequenceNumber hash =>
    some (s.rejectTransaction account sequenceNumber hash)
  | .readTimeline timelineId count => (s.readTimeline timelineId count).map fun _ => s
  | .gc now bySystemTtl => some (s.gc now bySystemTtl)

end Anthemius.Mempool

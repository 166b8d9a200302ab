import Anthemius.OrderedEntries
import Anthemius.ParkingLots
import Mathlib.Algebra.Ring.Nat

/-!
# Transactions in the mempool and their indexes

Numbers of 64 bits are natural numbers, and a sum that does not fit is a panic, written `none`.
Ordered sets are lists without repetitions where their order is not used. What is kept of a
transaction are the parts that the store reads.
-/
namespace Anthemius.Mempool

abbrev HashValue := ℕ

def checkedSucc (n : ℕ) : Option ℕ := if n + 1 < 2 ^ 64 then some (n + 1) else none

theorem checkedSucc_eq_some {n m : ℕ} (h : checkedSucc n = some m) : m = n + 1 := by
  unfold checkedSucc at h
  split at h
  · exact (Option.some.inj h).symm
  · cases h

/-- The committed hash covers the payload and the signatures. -/
structure SignedTransaction (P : Type) where
  sender : AccountAddress
  sequenceNumber : ℕ
  payload : P
  maxGasAmount : ℕ
  gasUnitPrice : ℕ
  expirationTimestampSecs : ℕ
  rawTxnBytesLen : ℕ
  committedHash : HashValue
  deriving DecidableEq

inductive TimelineState
  | ready (timelineId : ℕ)
  | notReady
  | nonQualified
  deriving DecidableEq

/-- What is ready is no longer so. -/
def TimelineState.demoted : TimelineState → TimelineState
  | .ready _ => .notReady
  | .notReady => .notReady
  | .nonQualified => .nonQualified

theorem TimelineState.demoted_ne_ready (state : TimelineState) (id : ℕ) :
    state.demoted ≠ .ready id := by
  cases state <;> exact TimelineState.noConfusion

inductive AccountSequenceInfo
  | sequential (seqno : ℕ)
  deriving DecidableEq

def AccountSequenceInfo.minSeq : AccountSequenceInfo → ℕ
  | .sequential seqno => seqno

/-- The sequence number of the transaction stands in the transaction itself. Times are in
nanoseconds. -/
structure MempoolTransaction (P : Type) where
  txn : SignedTransaction P
  expirationTime : ℕ
  rankingScore : ℕ
  timelineState : TimelineState
  accountSequenceNumberType : AccountSequenceInfo
  deriving DecidableEq

/-- The account sequence number of a queue key is not compared and not read. -/
structure OrderedQueueKey where
  gasRankingScore : ℕ
  expirationTime : ℕ
  address : AccountAddress
  sequenceNumber : ℕ
  deriving DecidableEq

structure TTLOrderingKey where
  expirationTime : ℕ
  address : AccountAddress
  sequenceNumber : ℕ
  deriving DecidableEq

def TTLOrderingKey.pointer (key : TTLOrderingKey) : TxnPointer := (key.address, key.sequenceNumber)

namespace MempoolTransaction
variable {P : Type} (t : MempoolTransaction P)

def getSender : AccountAddress := t.txn.sender

def sequenceNumber : ℕ := t.txn.sequenceNumber

def pointer : TxnPointer := (t.getSender, t.sequenceNumber)

def getGasPrice : ℕ := t.txn.gasUnitPrice

def getCommittedHash : HashValue := t.txn.committedHash

/-- The sizes of the records around a transaction are a parameter. -/
def getEstimatedBytes (overheadBytes : ℕ) : ℕ := t.txn.rawTxnBytesLen + overheadBytes

def queueKey : OrderedQueueKey :=
  ⟨t.rankingScore, t.expirationTime, t.getSender, t.sequenceNumber⟩

def systemTtlKey : TTLOrderingKey := ⟨t.expirationTime, t.getSender, t.sequenceNumber⟩

def expirationTimeKey : TTLOrderingKey :=
  ⟨t.txn.expirationTimestampSecs * 10 ^ 9, t.getSender, t.sequenceNumber⟩

def withState (state : TimelineState) : MempoolTransaction P := { t with timelineState := state }

def isReady : Bool :=
  match t.timelineState with
  | .ready _ => true
  | .notReady | .nonQualified => false

end MempoolTransaction

/-! ## Expiration -/

/-- What is older than `now` is taken out. -/
def TTLOrderingKey.isExpired (now : ℕ) (key : TTLOrderingKey) : Bool := key.expirationTime < now

/-! ## Timelines -/

structure TimelineIndex where
  timelineId : ℕ
  timeline : List (ℕ × TxnPointer)

namespace TimelineIndex

def new : TimelineIndex := ⟨1, []⟩

variable (index : TimelineIndex)

/-- The loop stops when the batch has as many entries as asked for. -/
def readLoop (count : ℕ) : List (ℕ × TxnPointer) → List TxnPointer → List TxnPointer
  | [], batch => batch
  | entry :: rest, batch =>
    let batch := batch ++ [entry.2]
    if batch.length = count then batch else readLoop count rest batch

def readTimeline (timelineId count : ℕ) : List TxnPointer :=
  readLoop count (index.timeline.filter (timelineId < ·.1)) []

/-- The start is not part of the range. A range that ends before its start is a panic. -/
def timelineRange (startId endId : ℕ) : Option (List TxnPointer) :=
  if endId < startId then none
  else some ((index.timeline.filter fun entry => startId < entry.1 ∧ entry.1 ≤ endId).map Prod.snd)

/-- The new id is the state of the transaction. -/
def insert (txn : TxnPointer) : Option (ℕ × TimelineIndex) := do
  let next ← checkedSucc index.timelineId
  some (index.timelineId, ⟨next, OrderedEntries.insert index.timelineId txn index.timeline⟩)

def remove (state : TimelineState) : TimelineIndex :=
  match state with
  | .ready timelineId => { index with timeline := index.timeline.filter (·.1 ≠ timelineId) }
  | .notReady | .nonQualified => index

end TimelineIndex

structure MultiBucketTimelineIndex where
  timelines : List TimelineIndex
  bucketMins : List ℕ

namespace MultiBucketTimelineIndex

def new (bucketMins : List ℕ) : Except String MultiBucketTimelineIndex :=
  if bucketMins.isEmpty then .error "Must not be empty"
  else if bucketMins.head? ≠ some 0 then .error "First bucket must start at 0"
  else if ¬ bucketMins.IsChain (· < ·) then .error "Values must be sorted and not repeat"
  else .ok ⟨bucketMins.map fun _ => .new, bucketMins⟩

variable (index : MultiBucketTimelineIndex)

/-- The binary search finds the last bucket whose minimum is not above the score. -/
def getTimeline (rankingScore : ℕ) : ℕ := (index.bucketMins.filter (· ≤ rankingScore)).length - 1

/-- From the last bucket to the first, until the count is reached. The remaining buckets are empty.
More entries than asked for are a panic in the next bucket. -/
def readLoop (count : ℕ) : List (TimelineIndex × ℕ) → ℕ → Option (List (List TxnPointer))
  | [], _ => some []
  | (timeline, timelineId) :: rest, added =>
    if count < added then none
    else
      let txns := timeline.readTimeline timelineId (count - added)
      if added + txns.length = count then some (txns :: rest.map fun _ => [])
      else (readLoop count rest (added + txns.length)).map (txns :: ·)

def readTimeline (timelineId : List ℕ) (count : ℕ) : Option (List (List TxnPointer)) :=
  if timelineId.length = index.bucketMins.length then
    (readLoop count (index.timelines.zip timelineId).reverse 0).map List.reverse
  else none

def timelineRange (startEndPairs : List (ℕ × ℕ)) : Option (List TxnPointer) :=
  if startEndPairs.length = index.timelines.length then
    ((index.timelines.zip startEndPairs).mapM fun bucket : TimelineIndex × ℕ × ℕ =>
      bucket.1.timelineRange bucket.2.1 bucket.2.2).map List.flatten
  else none

/-- The bucket is that of the ranking score. -/
def insert (rankingScore : ℕ) (txn : TxnPointer) : Option (ℕ × MultiBucketTimelineIndex) := do
  let timeline ← index.timelines[index.getTimeline rankingScore]?
  let inserted ← timeline.insert txn
  some (inserted.1,
    { index with timelines := index.timelines.set (index.getTimeline rankingScore) inserted.2 })

def remove (rankingScore : ℕ) (state : TimelineState) : MultiBucketTimelineIndex :=
  { index with
    timelines := index.timelines.modify (index.getTimeline rankingScore) (·.remove state) }

end MultiBucketTimelineIndex

end Anthemius.Mempool

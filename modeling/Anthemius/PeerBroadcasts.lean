import Anthemius.BroadcastTimeline

/-!
# Broadcasts to a peer

A peer's state has the ids up to which the timeline was sent, the batches that wait for an
acknowledgement, and those that are to be sent again.
-/
namespace Anthemius.Mempool

/-! ## Batches -/

/-- A range of timeline ids for each bucket, without its start and with its end. -/
abbrev MultiBatchId := List (ℕ × ℕ)

namespace MultiBatchId

def fromTimelineIds (old new : List ℕ) : MultiBatchId := old.zip new

def cmpPair (a b : ℕ × ℕ) : Ordering := (compare a.1 b.1).then (compare a.2 b.2)

def cmpPairs : List (ℕ × ℕ) → List (ℕ × ℕ) → Ordering
  | a :: as, b :: bs => (cmpPair a b).then (cmpPairs as bs)
  | [], _ | _ :: _, [] => .eq

/-- The last pairs come first. Pairs that only one of the two has are not compared. -/
def cmp (a b : MultiBatchId) : Ordering := cmpPairs a.reverse b.reverse

section Entries
variable {V : Type}

/-- A B-tree map as its entries in ascending order; an equal key stays as it is. -/
def insertEntry (id : MultiBatchId) (value : V) :
    List (MultiBatchId × V) → List (MultiBatchId × V)
  | [] => [(id, value)]
  | entry :: rest =>
    match cmp id entry.1 with
    | .lt => (id, value) :: entry :: rest
    | .eq => (entry.1, value) :: rest
    | .gt => entry :: insertEntry id value rest

def removeEntry (id : MultiBatchId) :
    List (MultiBatchId × V) → Option (V × List (MultiBatchId × V))
  | [] => none
  | entry :: rest =>
    match cmp id entry.1 with
    | .lt => none
    | .eq => some (entry.2, rest)
    | .gt => (removeEntry id rest).map fun found => (found.1, entry :: found.2)

end Entries

/-- The greater one, and the second if they are equal. -/
def maxOption : Option MultiBatchId → Option MultiBatchId → Option MultiBatchId
  | some a, some b => if cmp a b = .gt then some a else some b
  | some a, none => some a
  | none, b => b

end MultiBatchId

/-! ## The state of a peer -/

structure PeerSyncState where
  timelineId : List ℕ
  sentBatches : List (MultiBatchId × ℕ)
  retryBatches : List (MultiBatchId × Unit)
  backoffMode : Bool

/-- The part of the configuration that broadcasts read. -/
structure BroadcastConfig extends MempoolConfig where
  defaultFailovers : ℕ
  maxBroadcastsPerPeer : ℕ
  sharedMempoolAckTimeoutMs : ℕ
  sharedMempoolBatchSize : ℕ

inductive BroadcastError
  | networkError
  | noTransactions
  | peerNotPrioritized (priority : ℕ)
  | peerNotScheduled
  | tooManyPendingBroadcasts
  deriving DecidableEq

inductive BroadcastLabel
  | expired
  | retry
  deriving DecidableEq

/-- A batch that is to be sent; only a batch that was sent before has a label. -/
structure BroadcastBatch (P : Type) where
  batchId : MultiBatchId
  transactions : List (SignedTransaction P)
  metricLabel : Option BroadcastLabel

/-- What a broadcast finds around it. The loop over the sent batches reads the clock for each of
them. -/
structure BroadcastAttempt where
  isValidator : Bool
  prioritizedPeers : List ℕ
  peer : ℕ
  scheduledBackoff : Bool
  clock : MultiBatchId → ℕ
  sendTime : ℕ
  sends : Bool

def updateTimelineId (timelineId : List ℕ) (batchId : MultiBatchId) : List ℕ :=
  if timelineId.length ≠ batchId.length then timelineId
  else List.zipWith (fun current range => max current range.2) timelineId batchId

namespace PeerSyncState
variable {P : Type}

def new (numBroadcastBuckets : ℕ) : PeerSyncState :=
  ⟨List.replicate numBroadcastBuckets 0, [], [], false⟩

/-- It panics if the clock has gone back. -/
def processBroadcastAck (state : PeerSyncState) (batchId : MultiBatchId) (retry backoff : Bool)
    (timestamp : ℕ) : Option PeerSyncState :=
  match MultiBatchId.removeEntry batchId state.sentBatches with
  | none => some state
  | some (sentTimestamp, sentBatches) =>
    if timestamp < sentTimestamp then none
    else some
      { state with
        sentBatches := sentBatches
        retryBatches :=
          if retry then MultiBatchId.insertEntry batchId () state.retryBatches
          else state.retryBatches
        backoffMode := backoff || state.backoffMode }

def updateBroadcastState (state : PeerSyncState) (batchId : MultiBatchId) (sendTime : ℕ) :
    PeerSyncState :=
  { timelineId := updateTimelineId state.timelineId batchId
    sentBatches := MultiBatchId.insertEntry batchId sendTime state.sentBatches
    retryBatches :=
      match MultiBatchId.removeEntry batchId state.retryBatches with
      | some (_, retryBatches) => retryBatches
      | none => state.retryBatches
    backoffMode := false }

/-- The entries whose batches have transactions in the timeline. -/
def keepPresent {V : Type} (s : TransactionStore P) :
    List (MultiBatchId × V) → Option (List (MultiBatchId × V))
  | [] => some []
  | entry :: rest => do
    let txns ← s.timelineRange entry.1
    let kept ← keepPresent s rest
    some (if txns.isEmpty then kept else entry :: kept)

def syncWith (state : PeerSyncState) (s : TransactionStore P) : Option PeerSyncState := do
  let sentBatches ← keepPresent s state.sentBatches
  let retryBatches ← keepPresent s state.retryBatches
  some { state with sentBatches := sentBatches, retryBatches := retryBatches }

end PeerSyncState

namespace BroadcastConfig
variable {P : Type} (config : BroadcastConfig) (attempt : BroadcastAttempt)

def checkPeerPrioritized : Except BroadcastError Unit :=
  if attempt.isValidator then .ok ()
  else
    let position := attempt.prioritizedPeers.idxOf attempt.peer
    let priority := if position < attempt.prioritizedPeers.length then position else 2 ^ 64 - 1
    if config.defaultFailovers < priority then .error (.peerNotPrioritized priority) else .ok ()

def Expired (entry : MultiBatchId × ℕ) : Prop :=
  entry.2 + config.sharedMempoolAckTimeoutMs ≤ attempt.clock entry.1

instance (entry : MultiBatchId × ℕ) : Decidable (config.Expired attempt entry) :=
  inferInstanceAs (Decidable (_ ≤ _))

/-- The loop over the sent batches. -/
def expiredBatchId : List (MultiBatchId × ℕ) → ℕ → Option MultiBatchId →
    Except BroadcastError (Option MultiBatchId)
  | [], _, expired => .ok expired
  | entry :: rest, pending, expired =>
    if config.Expired attempt entry then
      if config.maxBroadcastsPerPeer ≤ pending then .error .tooManyPendingBroadcasts
      else expiredBatchId rest pending (some entry.1)
    else
      if config.maxBroadcastsPerPeer ≤ pending + 1 then .error .tooManyPendingBroadcasts
      else expiredBatchId rest (pending + 1) expired

def checkTransactions (batch : BroadcastBatch P) : Except BroadcastError (BroadcastBatch P) :=
  if batch.transactions.isEmpty then .error .noTransactions else .ok batch

/-- The batch for a peer whose batches are in line with the mempool. -/
def selectBatch (s : TransactionStore P) (state : PeerSyncState) :
    Option (Except BroadcastError (BroadcastBatch P)) :=
  match config.expiredBatchId attempt state.sentBatches 0 none with
  | .error error => some (.error error)
  | .ok expired =>
    match MultiBatchId.maxOption expired (state.retryBatches.getLast?.map Prod.fst) with
    | some id => (s.timelineRange id).map fun txns =>
        checkTransactions ⟨id, txns, some (if some id = expired then .expired else .retry)⟩
    | none => (s.readTimeline state.timelineId config.sharedMempoolBatchSize).map fun read =>
        checkTransactions ⟨MultiBatchId.fromTimelineIds state.timelineId read.2, read.1, none⟩

/-- The peer's batches are in line with the mempool afterwards, also if none is to be sent. -/
def determineBroadcastBatch (s : TransactionStore P) (state : PeerSyncState) :
    Option (PeerSyncState × Except BroadcastError (BroadcastBatch P)) :=
  match config.checkPeerPrioritized attempt with
  | .error error => some (state, .error error)
  | .ok _ =>
    if state.backoffMode && !attempt.scheduledBackoff then some (state, .error .peerNotScheduled)
    else do
      let synced ← state.syncWith s
      let batch ← config.selectBatch attempt s synced
      some (synced, batch)

/-- The peer's new state, with the batch that was sent. -/
def executeBroadcast (s : TransactionStore P) (state : PeerSyncState) :
    Option (PeerSyncState × Except BroadcastError (BroadcastBatch P)) := do
  let (state, result) ← config.determineBroadcastBatch attempt s state
  match result with
  | .error error => some (state, .error error)
  | .ok batch =>
    if attempt.sends then
      some (state.updateBroadcastState batch.batchId attempt.sendTime, .ok batch)
    else some (state, .error .networkError)

end BroadcastConfig

/-! ## Runs -/

inductive BroadcastEvent (P : Type)
  | perform (call : StoreCall P)
  | broadcast (attempt : BroadcastAttempt)
  | acknowledge (batchId : MultiBatchId) (retry backoff : Bool) (timestamp : ℕ)

/-- The mempool and one peer, with the batches in the order in which they were first sent and those
that were acknowledged without a retry. -/
structure BroadcastRun (P : Type) where
  mempool : TransactionStore P
  peer : PeerSyncState
  sent : List MultiBatchId
  acked : List MultiBatchId

namespace BroadcastRun
variable {P : Type}

def start (config : BroadcastConfig) (mempool : TransactionStore P) : BroadcastRun P :=
  ⟨mempool, .new config.broadcastBuckets.length, [], []⟩

def firstSent : Except BroadcastError (BroadcastBatch P) → List MultiBatchId
  | .ok ⟨batchId, _, none⟩ => [batchId]
  | .ok ⟨_, _, some _⟩ | .error _ => []

def step [DecidableEq P] (config : BroadcastConfig) (run : BroadcastRun P) :
    BroadcastEvent P → Option (BroadcastRun P)
  | .perform call => (run.mempool.perform call).map fun mempool => { run with mempool := mempool }
  | .broadcast attempt =>
    (config.executeBroadcast attempt run.mempool run.peer).map fun done =>
      { run with peer := done.1, sent := run.sent ++ firstSent done.2 }
  | .acknowledge batchId retry backoff timestamp =>
    (run.peer.processBroadcastAck batchId retry backoff timestamp).map fun peer =>
      { run with
        peer := peer
        acked :=
          if !retry && (MultiBatchId.removeEntry batchId run.peer.sentBatches).isSome then
            run.acked ++ [batchId]
          else run.acked }

end BroadcastRun

end Anthemius.Mempool

import Anthemius.ExecutedChunks
import Mathlib.Data.Finset.Basic

/-!
# Replay of recorded outputs

A chunk of recorded transactions is cut at the ends of epochs and at the versions to skip. Each
piece is executed by the virtual machine and compared with the record up to the first mismatch,
what has been compared is applied as recorded, and the rest is executed again.
-/
namespace Anthemius.Executor

open EntryMaps Outcomes StateStore Accumulators

variable {R K V P H ε ε' Tx Ev S E : Type}

/-- A transaction with what the archive has for it. -/
structure RecordedTransaction (K V H Tx Ev S : Type) where
  transaction : Tx
  info : TransactionInfo H S
  writeSet : WriteSet K V
  events : List Ev

/-- The transaction with the output that is applied. -/
def RecordedTransaction.applied (r : RecordedTransaction K V H Tx Ev S) :
    Tx × TransactionOutput K V Ev S :=
  (r.transaction, ⟨r.writeSet, r.events, r.info.gasUsed, .keep r.info.status⟩)

inductive VerifyExecutionMode
  | noVerify
  | verify (txnsToSkip : Finset ℕ) (lazyQuit : Bool)

namespace VerifyExecutionMode

def txnsToSkip : VerifyExecutionMode → Finset ℕ
  | .noVerify => ∅
  | .verify txnsToSkip _ => txnsToSkip

def isLazyQuit : VerifyExecutionMode → Bool
  | .noVerify => false
  | .verify _ lazyQuit => lazyQuit

def shouldVerify : VerifyExecutionMode → Bool
  | .noVerify => false
  | .verify _ _ => true

end VerifyExecutionMode

/-- The version with the own and the expected value. -/
inductive MatchError (H S : Type)
  | status (version : ℕ) (own : TransactionStatus S) (expected : S)
  | gasUsed (version own expected : ℕ)
  | writeSetHash (version : ℕ) (own expected : H)
  | eventRootHash (version : ℕ) (own expected : H)

inductive ReplayError (H ε ε' S : Type)
  | view (err : ε')
  | mismatch (err : MatchError H S)
  | apply (err : CalculatorError ε)
  | syncingDiscardedTransactions
  | crossesEpochBoundary
  | infosLength (toCommit infos : ℕ)
  | infosDoNotMatch (version : ℕ) (info expected : TransactionInfo H S)

/-- The virtual machine and the cache of written keys, on the state view of a tree. -/
structure ReplayViews (R K V P ε' Tx Ev S : Type) where
  execute : List Tx → R → Outcome ε' (List (TransactionOutput K V Ev S))
  primeCache : List (WriteSet K V) → R → Outcome ε' (StateCache K V P)

structure ChunkCommitQueue (R K V H Tx Ev S E : Type) where
  persistedView : ExecutedTrees R K V H
  chunksToCommit : List (ExecutedChunk R K V H Tx Ev S E)

def ChunkCommitQueue.latestView (q : ChunkCommitQueue R K V H Tx Ev S E) : ExecutedTrees R K V H :=
  (q.chunksToCommit.getLast?.map (·.resultView)).getD q.persistedView

def ExecutedChunk.combine (chunk rhs : ExecutedChunk R K V H Tx Ev S E) :
    ExecutedChunk R K V H Tx Ev S E where
  status := chunk.status ++ rhs.status
  toCommit := chunk.toCommit ++ rhs.toCommit
  resultView := rhs.resultView
  nextEpochState := rhs.nextEpochState

/-- An output compared with an info at a version. -/
structure Comparison (K V H Ev S : Type) where
  version : ℕ
  output : TransactionOutput K V Ev S
  info : TransactionInfo H S

/-- The replay under way, with the list of comparisons made. -/
structure Replay (R K V H Tx Ev S E : Type) where
  executedChunk : ExecutedChunk R K V H Tx Ev S E
  latestView : ExecutedTrees R K V H
  remaining : List (RecordedTransaction K V H Tx Ev S)
  seenError : Bool
  compared : List (Comparison K V H Ev S)

namespace Environment
variable [DecidableEq H] [DecidableEq S] (env : Environment R K V P H ε Tx Ev S E)

def ensureMatchTransactionInfo (output : TransactionOutput K V Ev S) (version : ℕ)
    (info : TransactionInfo H S) : Except (MatchError H S) Unit :=
  if output.status ≠ .keep info.status then .error (.status version output.status info.status)
  else if output.gasUsed ≠ info.gasUsed then
    .error (.gasUsed version output.gasUsed info.gasUsed)
  else if env.writeSetHash output.writeSet ≠ info.stateChangeHash then
    .error (.writeSetHash version (env.writeSetHash output.writeSet) info.stateChangeHash)
  else if env.eventRootHash output.events ≠ info.eventRootHash then
    .error (.eventRootHash version (env.eventRootHash output.events) info.eventRootHash)
  else .ok ()

/-- The comparisons up to the first mismatch. -/
def compareAll : ℕ → List (TransactionOutput K V Ev S) → List (RecordedTransaction K V H Tx Ev S) →
    List (Comparison K V H Ev S) × Option (ℕ × MatchError H S)
  | version, output :: outputs, r :: rs =>
    match env.ensureMatchTransactionInfo output version r.info with
    | .error err => ([⟨version, output, r.info⟩], some (version, err))
    | .ok () =>
      (⟨version, output, r.info⟩ :: (compareAll (version + 1) outputs rs).1,
        (compareAll (version + 1) outputs rs).2)
  | _, _, _ => ([], none)

/-- The version to go on with comes first. -/
def verifyExecution (views : ReplayViews R K V P ε' Tx Ev S) (lazyQuit : Bool)
    (s : Replay R K V H Tx Ev S E) (beginVersion endVersion : ℕ) :
    Outcome (ReplayError H ε ε' S) (ℕ × Replay R K V H Tx Ev S E) := do
  let batch := s.remaining.take (endVersion - beginVersion)
  let outputs ← mapError .view
    (views.execute (batch.map (·.transaction)) s.latestView.state.current.root)
  match env.compareAll beginVersion outputs batch with
  | (compared, none) => pure (endVersion, { s with compared := s.compared ++ compared })
  | (compared, some (version, err)) =>
    if lazyQuit then
      pure (version + 1, { s with compared := s.compared ++ compared, seenError := true })
    else throw (.mismatch err)

/-- Hashes that differ without infos that differ are a crash. -/
def ensureTransactionInfosMatch (chunk : ExecutedChunk R K V H Tx Ev S E)
    (infos : List (TransactionInfo H S)) : Outcome (ReplayError H ε ε' S) Unit := do
  ensure (chunk.toCommit.length = infos.length) (.infosLength chunk.toCommit.length infos.length)
  if env.infoHashes chunk.toCommit = infos.map env.infoHash then pure ()
  else
    let pairs := chunk.toCommit.zip infos
    match pairs.findIdx? fun p => p.1.info ≠ p.2, pairs.find? fun p => p.1.info ≠ p.2 with
    | some idx, some (txn, expected) =>
      throw (.infosDoNotMatch (chunk.resultView.transactionAccumulator.version + 1 + idx -
        chunk.toCommit.length) txn.info expected)
    | _, _ => crash

variable [DecidableEq K]

def removeAndApply (views : ReplayViews R K V P ε' Tx Ev S) (s : Replay R K V H Tx Ev S E)
    (beginVersion endVersion : ℕ) :
    Outcome (ReplayError H ε ε' S) (Replay R K V H Tx Ev S E) := do
  let numTxns := endVersion - beginVersion
  -- the vectors are drained by that many
  assert (numTxns ≤ s.remaining.length)
  let batch := s.remaining.take numTxns
  let cache ← mapError .view
    (views.primeCache (batch.map (·.writeSet)) s.latestView.state.current.root)
  let (executedBatch, toDiscard, toRetry) ← mapError .apply (env.apply
    ⟨(batch.map (·.applied)).map Prod.fst, (batch.map (·.applied)).map Prod.snd, cache⟩
    s.latestView)
  ensure (toDiscard.length = 0) .syncingDiscardedTransactions
  ensure (toRetry.length = 0) .crossesEpochBoundary
  env.ensureTransactionInfosMatch executedBatch (batch.map (·.info))
  pure { s with
    executedChunk := s.executedChunk.combine executedBatch
    latestView := (s.executedChunk.combine executedBatch).resultView
    remaining := s.remaining.drop numTxns }

/-- The skipped versions in the range and its end. -/
def batchEnds (txnsToSkip : Finset ℕ) (beginVersion endVersion : ℕ) : List ℕ :=
  (List.range' beginVersion (endVersion - beginVersion)).filter (· ∈ txnsToSkip) ++ [endVersion]

/-- The version to go on with: the end of the batch if nothing is verified. -/
def nextBegin (views : ReplayViews R K V P ε' Tx Ev S) (mode : VerifyExecutionMode)
    (s : Replay R K V H Tx Ev S E) (batchBegin batchEnd : ℕ) :
    Outcome (ReplayError H ε ε' S) (ℕ × Replay R K V H Tx Ev S E) :=
  if mode.shouldVerify then env.verifyExecution views mode.isLazyQuit s batchBegin batchEnd
  else pure (batchEnd, s)

/-- The loop over the batches of an epoch; the fuel is the number of versions. -/
def replayLoop (views : ReplayViews R K V P ε' Tx Ev S) (mode : VerifyExecutionMode)
    (endVersion : ℕ) : ℕ → ℕ → ℕ → List ℕ → Replay R K V H Tx Ev S E →
      Outcome (ReplayError H ε ε' S) (Replay R K V H Tx Ev S E)
  | 0, batchBegin, _, _, s => if batchBegin < endVersion then crash else pure s
  | fuel + 1, batchBegin, batchEnd, ends, s =>
    if batchBegin < endVersion then
      if batchBegin = batchEnd then do
        -- a known broken version that won't pass execution verification
        let s ← env.removeAndApply views s batchBegin (batchBegin + 1)
        match ends with
        | [] => crash
        | next :: ends => replayLoop views mode endVersion fuel (batchBegin + 1) next ends s
      else do
        let (next, s) ← env.nextBegin views mode s batchBegin batchEnd
        let s ← env.removeAndApply views s batchBegin next
        replayLoop views mode endVersion fuel next batchEnd ends s
    else pure s

def removeAndReplayEpoch (views : ReplayViews R K V P ε' Tx Ev S) (mode : VerifyExecutionMode)
    (s : Replay R K V H Tx Ev S E) (beginVersion endVersion : ℕ) :
    Outcome (ReplayError H ε ε' S) (Replay R K V H Tx Ev S E) :=
  match batchEnds mode.txnsToSkip beginVersion endVersion with
  | [] => crash
  | batchEnd :: ends =>
    env.replayLoop views mode endVersion (endVersion - beginVersion) beginVersion batchEnd ends s

/-- The epochs of the chunk: `version` is the next one to look at. -/
def findEpochs (epochBegin version : ℕ) :
    List (RecordedTransaction K V H Tx Ev S) → List (ℕ × ℕ)
  | [] => if epochBegin < version then [(epochBegin, version)] else []
  | r :: rs =>
    if r.events.any env.isNewEpochEvent then
      (epochBegin, version + 1) :: findEpochs (version + 1) (version + 1) rs
    else findEpochs epochBegin (version + 1) rs

def replayEpochs (views : ReplayViews R K V P ε' Tx Ev S) (mode : VerifyExecutionMode) :
    List (ℕ × ℕ) → Replay R K V H Tx Ev S E →
      Outcome (ReplayError H ε ε' S) (Replay R K V H Tx Ev S E)
  | [], s => pure s
  | epoch :: epochs, s => do
    let s ← env.removeAndReplayEpoch views mode s epoch.1 epoch.2
    replayEpochs views mode epochs s

/-- `emptyView` is that of the default chunk. The queue comes with the error flag and the
comparisons made. -/
def replay (views : ReplayViews R K V P ε' Tx Ev S) (mode : VerifyExecutionMode)
    (emptyView : ExecutedTrees R K V H) (q : ChunkCommitQueue R K V H Tx Ev S E) (seenError : Bool)
    (records : List (RecordedTransaction K V H Tx Ev S)) :
    Outcome (ReplayError H ε ε' S)
      (ChunkCommitQueue R K V H Tx Ev S E × Bool × List (Comparison K V H Ev S)) := do
  let chunkBegin := q.latestView.transactionAccumulator.numLeaves
  let s ← env.replayEpochs views mode (env.findEpochs chunkBegin chunkBegin records)
    ⟨⟨[], [], emptyView, none⟩, q.latestView, records, seenError, []⟩
  pure ({ q with chunksToCommit := q.chunksToCommit ++ [s.executedChunk] }, s.seenError,
    s.compared)

end Environment

end Anthemius.Executor

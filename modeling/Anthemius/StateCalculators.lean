import Anthemius.StateDeltas
import Anthemius.StateUsages

/-!
# The state calculator

The calculator goes through the outputs of a chunk of transactions. It keeps the updates after the
latest state tree, those between the last checkpoint and the latest tree, and the storage usage. A
new tree is made at every checkpoint and at the end. The updater of the trees is a parameter.
-/
namespace Anthemius.StateStore

open EntryMaps Outcomes

variable {R K V P H E ε : Type}

inductive TransactionKind
  | genesisTransaction
  | userTransaction
  | blockMetadata
  | stateCheckpoint
  deriving DecidableEq

inductive WriteOp (V : Type)
  | creation (value : V)
  | modification (value : V)
  | deletion

def WriteOp.value : WriteOp V → Option V
  | .creation value | .modification value => some value
  | .deletion => none

structure WriteSet (K V : Type) where
  ops : List (K × WriteOp V)
  distinct : Distinct ops

/-- The keys with their values, or none where one was deleted. -/
def WriteSet.updates (writeSet : WriteSet K V) : List (K × Option V) :=
  writeSet.ops.map fun op => (op.1, op.2.value)

structure ParsedTransactionOutput (K V : Type) where
  writeSet : WriteSet K V
  isReconfig : Bool

abbrev KeptTransaction (K V : Type) := TransactionKind × ParsedTransactionOutput K V

/-- A state tree with its usage. -/
structure SparseMerkleTree (R : Type) where
  root : R
  usage : StateStorageUsage

structure StateCache (K V P : Type) where
  stateCache : List (K × Option V)
  proofs : P

/-- The state trees: their hashes, the updater with the proofs it reads, and the sizes. -/
structure Scratchpad (R K V P H ε : Type) where
  hash : R → H
  update : R → List (K × Option V) → P → Outcome ε R
  sizes : Sizes K V

inductive CalculatorError (ε : Type)
  | vacantEntry
  | update (err : ε)
  | validatorSet

def SparseMerkleTree.rootHash (pad : Scratchpad R K V P H ε) (tree : SparseMerkleTree R) : H :=
  pad.hash tree.root

def SparseMerkleTree.batchUpdate (pad : Scratchpad R K V P H ε) (tree : SparseMerkleTree R)
    (updates : List (K × Option V)) (usage : StateStorageUsage) (proofs : P) :
    Outcome (CalculatorError ε) (SparseMerkleTree R) :=
  if updates.isEmpty then do
    assert (tree.usage = usage)
    pure tree
  else do
    let root ← mapError .update (pad.update tree.root updates proofs)
    pure ⟨root, usage⟩

structure InMemoryStateCalculator (R K V P : Type) where
  proofReader : P
  stateCache : List (K × Option V)
  nextVersion : ℕ
  updatesAfterLatest : List (K × Option V)
  usage : StateStorageUsage
  checkpoint : SparseMerkleTree R
  checkpointVersion : Option ℕ
  latest : SparseMerkleTree R
  updatesBetweenCheckpointAndLatest : List (K × Option V)

/-- A transaction that may write what it has not read. -/
def validForVacantEntry : Option TransactionKind → Prop
  | none | some .genesisTransaction | some .stateCheckpoint => True
  | some .blockMetadata | some .userTransaction => False

instance : DecidablePred validForVacantEntry
  | none | some .genesisTransaction | some .stateCheckpoint => isTrue trivial
  | some .blockMetadata | some .userTransaction => isFalse id

section Writes
variable [DecidableEq K]

def processStateKeyWriteOp (sizes : Sizes K V) (transaction : Option TransactionKind)
    (cache : List (K × Option V)) (usage : StateStorageUsage) (key : K) (op : WriteOp V) :
    Outcome (CalculatorError ε) (List (K × Option V) × StateStorageUsage) :=
  match get key cache with
  | some old => do
    let usage ← usage.replace sizes key old op.value
    pure (set key op.value cache, usage)
  | none => do
    let usage ← usage.replace sizes key none op.value
    ensure (validForVacantEntry transaction) .vacantEntry
    pure (set key op.value cache, usage)

def processWriteOps (sizes : Sizes K V) (transaction : Option TransactionKind) :
    List (K × WriteOp V) → List (K × Option V) → StateStorageUsage →
      Outcome (CalculatorError ε) (List (K × Option V) × StateStorageUsage)
  | [], cache, usage => pure (cache, usage)
  | (key, op) :: ops, cache, usage => do
    let (cache, usage) ← processStateKeyWriteOp sizes transaction cache usage key op
    processWriteOps sizes transaction ops cache usage

end Writes

namespace InMemoryStateCalculator

/-- The version before a number of transactions. -/
def versionBefore : ℕ → Option ℕ
  | 0 => none
  | n + 1 => some n

def new (base : StateDelta (SparseMerkleTree R) K V) (cache : StateCache K V P) :
    InMemoryStateCalculator R K V P where
  proofReader := cache.proofs
  stateCache := cache.stateCache
  nextVersion := StateStore.nextVersion base.currentVersion
  updatesAfterLatest := []
  usage := base.current.usage
  checkpoint := base.base
  checkpointVersion := base.baseVersion
  latest := base.current
  updatesBetweenCheckpointAndLatest := base.updatesSinceBase

variable [DecidableEq K]

def processWriteSet (pad : Scratchpad R K V P H ε) (c : InMemoryStateCalculator R K V P)
    (transaction : Option TransactionKind) (writeSet : WriteSet K V) :
    Outcome (CalculatorError ε) (InMemoryStateCalculator R K V P) := do
  let (cache, usage) ← processWriteOps pad.sizes transaction writeSet.ops c.stateCache c.usage
  pure { c with
    stateCache := cache
    usage := usage
    updatesAfterLatest := extend c.updatesAfterLatest writeSet.updates
    nextVersion := c.nextVersion + 1 }

def makeCheckpoint (pad : Scratchpad R K V P H ε) (c : InMemoryStateCalculator R K V P) :
    Outcome (CalculatorError ε) (InMemoryStateCalculator R K V P × H) := do
  let newCheckpoint ← c.latest.batchUpdate pad c.updatesAfterLatest c.usage c.proofReader
  pure ({ c with
    latest := newCheckpoint
    checkpoint := newCheckpoint
    checkpointVersion := versionBefore c.nextVersion
    updatesBetweenCheckpointAndLatest := []
    updatesAfterLatest := [] }, newCheckpoint.rootHash pad)

end InMemoryStateCalculator

/-- A transaction after which a checkpoint is made. -/
def endsCheckpoint (transaction : TransactionKind) (output : ParsedTransactionOutput K V) : Bool :=
  output.isReconfig || match transaction with
    | .blockMetadata | .userTransaction => false
    | .genesisTransaction | .stateCheckpoint => true

namespace InMemoryStateCalculator
variable [DecidableEq K]

def addTransaction (pad : Scratchpad R K V P H ε) (c : InMemoryStateCalculator R K V P)
    (transaction : TransactionKind) (output : ParsedTransactionOutput K V) :
    Outcome (CalculatorError ε)
      (InMemoryStateCalculator R K V P × List (K × Option V) × Option H) := do
  let c ← c.processWriteSet pad (some transaction) output.writeSet
  if endsCheckpoint transaction output then do
    let (c, hash) ← c.makeCheckpoint pad
    pure (c, output.writeSet.updates, some hash)
  else pure (c, output.writeSet.updates, none)

def addTransactions (pad : Scratchpad R K V P H ε) :
    List (KeptTransaction K V) → InMemoryStateCalculator R K V P →
      Outcome (CalculatorError ε)
        (InMemoryStateCalculator R K V P × List (List (K × Option V)) × List (Option H))
  | [], c => pure (c, [], [])
  | (transaction, output) :: rest, c => do
    let (c, updates, hash) ← c.addTransaction pad transaction output
    let (c, updatesVec, hashes) ← addTransactions pad rest c
    pure (c, updates :: updatesVec, hash :: hashes)

/-- The second part are the accounts in the cache. -/
def finish (pad : Scratchpad R K V P H ε) (c : InMemoryStateCalculator R K V P) :
    Outcome (CalculatorError ε) (StateDelta (SparseMerkleTree R) K V × List (K × V)) := do
  let latest ← c.latest.batchUpdate pad c.updatesAfterLatest c.usage c.proofReader
  let currentVersion := versionBefore c.nextVersion
  assert (StateStore.nextVersion c.checkpointVersion ≤ StateStore.nextVersion currentVersion)
  pure ({
    base := c.checkpoint
    baseVersion := c.checkpointVersion
    current := latest
    currentVersion := currentVersion
    updatesSinceBase := extend c.updatesBetweenCheckpointAndLatest c.updatesAfterLatest },
    c.stateCache.filterMap fun entry => entry.2.map fun value => (entry.1, value))

structure ChunkResult (R K V H E : Type) where
  stateUpdatesVec : List (List (K × Option V))
  stateCheckpointHashes : List (Option H)
  resultState : StateDelta (SparseMerkleTree R) K V
  nextEpochState : Option E

/-- The validator set is read if there is a new epoch. -/
def readEpochState (parseValidatorSet : List (K × V) → Option E) (newEpoch : Bool)
    (accounts : List (K × V)) : Outcome (CalculatorError ε) (Option E) :=
  if newEpoch then some <$> orElse (parseValidatorSet accounts) .validatorSet else pure none

def calculateForTransactionChunk (pad : Scratchpad R K V P H ε)
    (parseValidatorSet : List (K × V) → Option E) (c : InMemoryStateCalculator R K V P)
    (toKeep : List (KeptTransaction K V)) (newEpoch : Bool) :
    Outcome (CalculatorError ε) (ChunkResult R K V H E) := do
  let (c, updatesVec, hashes) ← addTransactions pad toKeep c
  let (resultState, accounts) ← c.finish pad
  let nextEpochState ← readEpochState parseValidatorSet newEpoch accounts
  pure ⟨updatesVec, hashes, resultState, nextEpochState⟩

def addWriteSets (pad : Scratchpad R K V P H ε) :
    List (WriteSet K V) → InMemoryStateCalculator R K V P →
      Outcome (CalculatorError ε) (InMemoryStateCalculator R K V P)
  | [], c => pure c
  | writeSet :: rest, c => do
    let c ← c.processWriteSet pad none writeSet
    addWriteSets pad rest c

/-- The updates up to the last checkpoint, if there is one. -/
def addUntilCheckpoint (pad : Scratchpad R K V P H ε) (c : InMemoryStateCalculator R K V P)
    (idxAfterLastCheckpoint : ℕ) (writeSets : List (WriteSet K V)) :
    Outcome (CalculatorError ε)
      (InMemoryStateCalculator R K V P × Option (List (K × Option V))) :=
  if idxAfterLastCheckpoint = 0 then pure (c, none)
  else do
    let c ← addWriteSets pad (writeSets.take idxAfterLastCheckpoint) c
    let (next, _) ← c.makeCheckpoint pad
    pure (next, some c.updatesAfterLatest)

def calculateForWriteSetsAfterSnapshot (pad : Scratchpad R K V P H ε)
    (c : InMemoryStateCalculator R K V P) (lastCheckpointIndex : Option ℕ)
    (writeSets : List (WriteSet K V)) :
    Outcome (CalculatorError ε)
      (Option (List (K × Option V)) × StateDelta (SparseMerkleTree R) K V) := do
  let idxAfterLastCheckpoint := lastCheckpointIndex.elim 0 (· + 1)
  -- the two slices are in range
  assert (idxAfterLastCheckpoint ≤ writeSets.length)
  let (c, updates) ← c.addUntilCheckpoint pad idxAfterLastCheckpoint writeSets
  let c ← addWriteSets pad (writeSets.drop idxAfterLastCheckpoint) c
  let (resultState, _) ← c.finish pad
  pure (updates, resultState)

end InMemoryStateCalculator

end Anthemius.StateStore

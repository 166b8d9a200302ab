import Anthemius.InMemoryAccumulators
import Anthemius.StateReplays

/-!
# Applying the output of a chunk

The outputs of a chunk are sorted by their status, the kept ones are applied to the state, and
their infos are appended to the accumulator.
-/
namespace Anthemius.Executor

open EntryMaps Outcomes StateStore Accumulators

inductive TransactionStatus (S : Type)
  | keep (status : S)
  | discard
  | retry
  deriving DecidableEq

namespace TransactionStatus
variable {S : Type}

def isKeep : TransactionStatus S → Bool
  | .keep _ => true
  | .discard | .retry => false

end TransactionStatus

structure TransactionOutput (K V Ev S : Type) where
  writeSet : WriteSet K V
  events : List Ev
  gasUsed : ℕ
  status : TransactionStatus S

structure TransactionInfo (H S : Type) where
  transactionHash : H
  stateChangeHash : H
  eventRootHash : H
  stateCheckpointHash : Option H
  gasUsed : ℕ
  status : S
  deriving DecidableEq

structure TransactionToCommit (K V H Tx Ev S : Type) where
  transaction : Tx
  stateUpdates : List (K × Option V)
  output : TransactionOutput K V Ev S
  info : TransactionInfo H S

/-- The state trees, the hash functions and what is read from transactions, events and accounts. -/
structure Environment (R K V P H ε Tx Ev S E : Type) where
  pad : Scratchpad R K V P H ε
  accumulator : PaddedTree.Hashing H
  kind : Tx → TransactionKind
  isNewEpochEvent : Ev → Bool
  parseValidatorSet : List (K × V) → Option E
  transactionHash : Tx → H
  writeSetHash : WriteSet K V → H
  eventRootHash : List Ev → H
  infoHash : TransactionInfo H S → H

/-- The state and the accumulator are of the same version. -/
structure ExecutedTrees (R K V H : Type) where
  state : StateDelta (SparseMerkleTree R) K V
  transactionAccumulator : InMemoryAccumulator H
  version_eq : nextVersion state.currentVersion = transactionAccumulator.numLeaves

structure ExecutedChunk (R K V H Tx Ev S E : Type) where
  status : List (TransactionStatus S)
  toCommit : List (TransactionToCommit K V H Tx Ev S)
  resultView : ExecutedTrees R K V H
  nextEpochState : Option E

structure ChunkOutput (K V P Tx Ev S : Type) where
  transactions : List Tx
  transactionOutputs : List (TransactionOutput K V Ev S)
  stateCache : StateCache K V P

structure SortedTransactions (K V Tx Ev S : Type) where
  newEpoch : Bool
  status : List (TransactionStatus S)
  toKeep : List (Tx × TransactionOutput K V Ev S)
  toDiscard : List Tx
  toRetry : List Tx

variable {R K V P H ε Tx Ev S E : Type}

def ExecutedTrees.new (state : StateDelta (SparseMerkleTree R) K V)
    (transactionAccumulator : InMemoryAccumulator H) :
    Outcome (CalculatorError ε) (ExecutedTrees R K V H) :=
  if h : nextVersion state.currentVersion = transactionAccumulator.numLeaves then
    pure ⟨state, transactionAccumulator, h⟩
  else crash

namespace Environment
variable (env : Environment R K V P H ε Tx Ev S E)

def isReconfig (output : TransactionOutput K V Ev S) : Bool :=
  output.events.any env.isNewEpochEvent

/-- What the state calculator looks at. -/
def parsed (txn : Tx × TransactionOutput K V Ev S) : KeptTransaction K V :=
  (env.kind txn.1, ⟨txn.2.writeSet, env.isReconfig txn.2⟩)

/-- Transactions after the one that ends the epoch are retried. -/
def sortTransactions (transactions : List Tx) (outputs : List (TransactionOutput K V Ev S)) :
    Outcome (CalculatorError ε) (SortedTransactions K V Tx Ev S) := do
  let newEpochMarker := (outputs.findIdx? env.isReconfig).map (· + 1)
  let remaining := newEpochMarker.elim outputs outputs.take
  let remainingTransactions := newEpochMarker.elim transactions transactions.take
  let status := remaining.map (·.status) ++ List.replicate transactions.length .retry
  assert (remainingTransactions.length = remaining.length)
  let pairs := remainingTransactions.zip remaining
  pure {
    newEpoch := newEpochMarker.isSome
    status := status.take transactions.length
    toKeep := pairs.filter (·.2.status.isKeep)
    toDiscard := (pairs.filter (!·.2.status.isKeep)).map Prod.fst
    toRetry := newEpochMarker.elim [] transactions.drop }

def transactionInfo (txn : Tx × TransactionOutput K V Ev S) (stateCheckpointHash : Option H) :
    Option (TransactionInfo H S) :=
  match txn.2.status with
  | .keep status => some {
      transactionHash := env.transactionHash txn.1
      stateChangeHash := env.writeSetHash txn.2.writeSet
      eventRootHash := env.eventRootHash txn.2.events
      stateCheckpointHash := stateCheckpointHash
      gasUsed := txn.2.gasUsed
      status := status }
  | .discard | .retry => none

/-- The three lists have the same length. -/
def assembleLedgerDiff : List (Tx × TransactionOutput K V Ev S) → List (List (K × Option V)) →
    List (Option H) → Outcome (CalculatorError ε) (List (TransactionToCommit K V H Tx Ev S))
  | [], [], [] => pure []
  | txn :: toKeep, updates :: updatesVec, hash :: hashes => do
    let info ← expect (env.transactionInfo txn hash)
    let rest ← assembleLedgerDiff toKeep updatesVec hashes
    pure (⟨txn.1, updates, txn.2, info⟩ :: rest)
  | _, _, _ => crash

def infoHashes (toCommit : List (TransactionToCommit K V H Tx Ev S)) : List H :=
  toCommit.map fun txn => env.infoHash txn.info

/-- The transactions that are discarded or retried come second. -/
def apply [DecidableEq K] (output : ChunkOutput K V P Tx Ev S) (base : ExecutedTrees R K V H) :
    Outcome (CalculatorError ε)
      (ExecutedChunk R K V H Tx Ev S E × List Tx × List Tx) := do
  let sorted ← env.sortTransactions output.transactions output.transactionOutputs
  let result ← (InMemoryStateCalculator.new base.state
    output.stateCache).calculateForTransactionChunk env.pad env.parseValidatorSet
      (sorted.toKeep.map env.parsed) sorted.newEpoch
  let toCommit ← env.assembleLedgerDiff sorted.toKeep result.stateUpdatesVec
    result.stateCheckpointHashes
  let accumulator ← expect
    (base.transactionAccumulator.append env.accumulator (env.infoHashes toCommit))
  let resultView ← ExecutedTrees.new result.resultState accumulator
  pure ({
    status := sorted.status
    toCommit := toCommit
    resultView := resultView
    nextEpochState := result.nextEpochState }, sorted.toDiscard, sorted.toRetry)

end Environment

/-! ## Outputs that are all kept -/

/-- Outputs to be kept, of which only the last may end the epoch. -/
structure KeptOutputs (env : Environment R K V P H ε Tx Ev S E)
    (txns : List (Tx × TransactionOutput K V Ev S)) : Prop where
  keep : ∀ txn ∈ txns, txn.2.status.isKeep
  epoch : ∀ txn ∈ txns.dropLast, env.isReconfig txn.2 = false

variable {env : Environment R K V P H ε Tx Ev S E}
  {txns : List (Tx × TransactionOutput K V Ev S)}

theorem KeptOutputs.marker (h : KeptOutputs env txns) :
    ((txns.map Prod.snd).findIdx? env.isReconfig).map (· + 1) = none ∨
      ((txns.map Prod.snd).findIdx? env.isReconfig).map (· + 1) = some txns.length := by
  cases hidx : (txns.map Prod.snd).findIdx? env.isReconfig with
  | none => exact .inl rfl
  | some i =>
    refine .inr (congrArg some ?_)
    obtain ⟨hi, hreconfig, -⟩ := List.findIdx?_eq_some_iff_getElem.mp hidx
    rw [List.length_map] at hi
    change i + 1 = txns.length
    by_contra hne
    have hlt : i < txns.dropLast.length := by
      rw [List.length_dropLast]
      omega
    have hfalse := h.epoch _ (List.getElem_mem hlt)
    rw [List.getElem_dropLast] at hfalse
    rw [List.getElem_map, hfalse] at hreconfig
    exact Bool.false_ne_true hreconfig

theorem KeptOutputs.sortTransactions (h : KeptOutputs env txns) :
    ∃ sorted, Returns (env.sortTransactions (txns.map Prod.fst) (txns.map Prod.snd)) sorted ∧
      sorted.toKeep = txns ∧ sorted.toDiscard = [] ∧ sorted.toRetry = [] := by
  have hkeep : txns.filter (fun txn => txn.2.status.isKeep) = txns := List.filter_eq_self.mpr h.keep
  have hdiscard : txns.filter (fun txn => !txn.2.status.isKeep) = [] := by
    rw [List.filter_eq_nil_iff]
    intro txn htxn
    simp [h.keep txn htxn]
  have hzip : (txns.map Prod.fst).zip (txns.map Prod.snd) = txns := by
    rw [List.zip_map', List.map_id'']
    exact fun _ => rfl
  refine ⟨_, returns_bind.mpr ⟨(), returns_assert.mpr ?_, returns_pure.mpr rfl⟩, ?_⟩
  · rcases h.marker with hm | hm <;> rw [hm] <;> simp
  · rcases h.marker with hm | hm
    · simp only [hm, Option.elim_none]
      rw [hzip]
      exact ⟨hkeep, by rw [hdiscard]; rfl, trivial⟩
    · have htake : ∀ {α : Type} (l : List α), l.length = txns.length → l.take txns.length = l :=
        fun l hl => List.take_of_length_le hl.le
      simp only [hm, Option.elim_some]
      rw [htake _ (List.length_map _), htake _ (List.length_map _), hzip]
      refine ⟨hkeep, by rw [hdiscard]; rfl, List.drop_of_length_le ?_⟩
      rw [List.length_map]

/-- What is committed for an output: its info has the hashes of the writes and events. -/
structure Environment.IsCommitOf (env : Environment R K V P H ε Tx Ev S E)
    (txn : Tx × TransactionOutput K V Ev S) (commit : TransactionToCommit K V H Tx Ev S) :
    Prop where
  transaction : commit.transaction = txn.1
  output : commit.output = txn.2
  stateChangeHash : commit.info.stateChangeHash = env.writeSetHash txn.2.writeSet
  eventRootHash : commit.info.eventRootHash = env.eventRootHash txn.2.events

theorem transactionInfo_of_isKeep (env : Environment R K V P H ε Tx Ev S E)
    {txn : Tx × TransactionOutput K V Ev S} (hkeep : txn.2.status.isKeep) (hash : Option H) :
    ∃ info, env.transactionInfo txn hash = some info ∧
      info.stateChangeHash = env.writeSetHash txn.2.writeSet ∧
      info.eventRootHash = env.eventRootHash txn.2.events := by
  cases hstatus : txn.2.status with
  | keep status => exact ⟨_, by rw [Environment.transactionInfo, hstatus], rfl, rfl⟩
  | discard => exact absurd hkeep (by simp [hstatus, TransactionStatus.isKeep])
  | retry => exact absurd hkeep (by simp [hstatus, TransactionStatus.isKeep])

theorem assembleLedgerDiff_returns (env : Environment R K V P H ε Tx Ev S E) :
    ∀ {txns : List (Tx × TransactionOutput K V Ev S)}
    {updatesVec : List (List (K × Option V))} {hashes : List (Option H)},
    (∀ txn ∈ txns, txn.2.status.isKeep) → updatesVec.length = txns.length →
    hashes.length = txns.length →
    ∃ toCommit, Returns (env.assembleLedgerDiff txns updatesVec hashes) toCommit ∧
      List.Forall₂ env.IsCommitOf txns toCommit
  | [], [], [], _, _, _ => ⟨[], returns_pure.mpr rfl, .nil⟩
  | txn :: txns, updates :: updatesVec, hash :: hashes, hkeep, hupdates, hhashes => by
    rw [List.forall_mem_cons] at hkeep
    obtain ⟨rest, hrest, hall⟩ := assembleLedgerDiff_returns env hkeep.2 (Nat.succ.inj hupdates)
      (Nat.succ.inj hhashes)
    obtain ⟨info, hinfo, hstate, hevents⟩ := transactionInfo_of_isKeep env hkeep.1 hash
    exact ⟨⟨txn.1, updates, txn.2, info⟩ :: rest, returns_bind.mpr ⟨info, returns_expect.mpr hinfo,
      returns_bind.mpr ⟨rest, hrest, returns_pure.mpr rfl⟩⟩, .cons ⟨rfl, rfl, hstate, hevents⟩ hall⟩

theorem length_checkpointHashes [DecidableEq K] (mapHash : (K → Option V) → H)
    (kept : List (KeptTransaction K V)) :
    ∀ a : Progress K V, (a.checkpointHashes mapHash kept).length = kept.length := by
  induction kept with
  | nil => exact fun _ => rfl
  | cons txn rest ih => exact fun a => congrArg Nat.succ (ih _)

section Applying
variable [DecidableEq K] {Represents : R → (K → Option V) → Prop} {Proves : P → R → K → Prop}
  {mapHash : (K → Option V) → H} {leaves : List H} {a : Progress K V}

/-- The trees hold the progress, and the accumulator the leaves. -/
structure ExecutedTrees.Holds (env : Environment R K V P H ε Tx Ev S E)
    (Represents : R → (K → Option V) → Prop) (view : ExecutedTrees R K V H) (a : Progress K V)
    (leaves : List H) : Prop where
  state : view.state.Realises env.pad.sizes Represents a
  accumulator : view.transactionAccumulator = InMemoryAccumulator.summary env.accumulator leaves

theorem ExecutedTrees.Holds.count_eq {view : ExecutedTrees R K V H}
    (h : view.Holds env Represents a leaves) : a.count = leaves.length := by
  have heq := view.version_eq
  rw [h.state.currentVersion, nextVersion_versionBefore, h.accumulator] at heq
  exact heq

/-- The assertion of the constructor holds if the progress counts the leaves. -/
theorem ExecutedTrees.new_returns {delta : StateDelta (SparseMerkleTree R) K V}
    (hdelta : delta.Realises env.pad.sizes Represents a) (hcount : a.count = leaves.length) :
    ∃ view, Returns (ExecutedTrees.new delta (InMemoryAccumulator.summary env.accumulator leaves) :
        Outcome (CalculatorError ε) _) view ∧ view.Holds env Represents a leaves := by
  have heq : nextVersion delta.currentVersion =
      (InMemoryAccumulator.summary env.accumulator leaves).numLeaves := by
    rw [hdelta.currentVersion, nextVersion_versionBefore, hcount]
    rfl
  exact ⟨⟨delta, _, heq⟩, by rw [ExecutedTrees.new, dif_pos heq]; exact returns_pure.mpr rfl,
    hdelta, rfl⟩

/-- A chunk whose cache covers its writes is calculated without a panic. -/
theorem calculate_safe (hpad : env.pad.Sound Represents Proves mapHash)
    {base : StateDelta (SparseMerkleTree R) K V} (hbase : base.Realises env.pad.sizes Represents a)
    (chunk : Chunk K V P) (hcache : chunk.cache.Covers Proves base a.current chunk.touched) :
    Safe (chunk.calculate env.pad env.parseValidatorSet base) := by
  obtain ⟨c, hadd, hc, -⟩ := (hbase.new hcache).addTransactions hpad chunk.toKeep
    fun txn htxn k hk => ⟨txn, htxn, hk⟩
  obtain ⟨delta, hfinish, -⟩ := hc.finish hpad
  refine safe_bind.mpr ⟨hadd.safe, fun added hadded => ?_⟩
  cases hadded.eq hadd
  refine safe_bind.mpr ⟨hfinish.safe, fun finished hfinished => ?_⟩
  cases hfinished.eq hfinish
  refine safe_bind.mpr ⟨?_, fun _ _ => safe_pure⟩
  rw [InMemoryStateCalculator.readEpochState, ← bind_pure_comp]
  split
  · exact safe_bind.mpr ⟨safe_orElse, fun _ _ => safe_pure⟩
  · exact safe_pure

/-- Kept outputs are applied without a panic; what comes out is the state after them, and one
leaf more for each of them. -/
theorem KeptOutputs.apply (h : KeptOutputs env txns)
    (hpad : env.pad.Sound Represents Proves mapHash) {base : ExecutedTrees R K V H}
    (hbase : base.Holds env Represents a leaves) (hroom : leaves.length + txns.length < 2 ^ 64)
    {cache : StateCache K V P} (hcache : ∀ txn ∈ txns, ∀ k ∈ txn.2.writeSet.ops.map Prod.fst,
      get k cache.stateCache = some (a.current k) ∧
        Proves cache.proofs base.state.current.root k) :
    Ensures (env.apply ⟨txns.map Prod.fst, txns.map Prod.snd, cache⟩ base) fun result =>
      result.2 = ([], []) ∧ List.Forall₂ env.IsCommitOf txns result.1.toCommit ∧
      result.1.resultView.Holds env Represents (a.run (txns.map env.parsed))
        (leaves ++ env.infoHashes result.1.toCommit) := by
  obtain ⟨sorted, hsort, hkeep, hdiscard, hretry⟩ := h.sortTransactions
  have hcovers : cache.Covers Proves base.state a.current
      (Chunk.touched (P := P) ⟨txns.map env.parsed, sorted.newEpoch, cache⟩) := by
    have htouched : ∀ k, Chunk.touched (P := P) ⟨txns.map env.parsed, sorted.newEpoch, cache⟩ k →
        ∃ txn ∈ txns, k ∈ txn.2.writeSet.ops.map Prod.fst := by
      rintro k ⟨txn, htxn, hk⟩
      obtain ⟨kept, hkept, rfl⟩ := List.mem_map.mp htxn
      exact ⟨kept, hkept, hk⟩
    constructor
    · intro k hk
      obtain ⟨txn, htxn, hmem⟩ := htouched k hk
      exact (hcache txn htxn k hmem).1
    · intro k hk
      obtain ⟨txn, htxn, hmem⟩ := htouched k hk
      exact (hcache txn htxn k hmem).2
  obtain ⟨delta, hdelta, hcalculate⟩ := Chunk.calculate_returns hpad hbase.state
    ⟨txns.map env.parsed, sorted.newEpoch, cache⟩ env.parseValidatorSet hcovers
  have hlength : ((txns.map env.parsed).map fun txn => txn.2.writeSet.updates).length =
      txns.length := by simp
  have hlength' : (a.checkpointHashes mapHash (txns.map env.parsed)).length = txns.length := by
    rw [length_checkpointHashes, List.length_map]
  obtain ⟨toCommit, hassemble, hcommit⟩ := assembleLedgerDiff_returns env h.keep hlength hlength'
  have hinfos : (env.infoHashes toCommit).length = txns.length := by
    rw [Environment.infoHashes, List.length_map, hcommit.length_eq]
  have happend : base.transactionAccumulator.append env.accumulator (env.infoHashes toCommit) =
      some (InMemoryAccumulator.summary env.accumulator (leaves ++ env.infoHashes toCommit)) := by
    rw [hbase.accumulator]
    refine InMemoryAccumulator.append_summary ?_
    rw [List.length_append, hinfos]
    exact hroom
  -- as many leaves are appended as transactions are counted
  have hcount : (a.run (txns.map env.parsed)).count =
      (leaves ++ env.infoHashes toCommit).length := by
    rw [Progress.count_run, List.length_map, hbase.count_eq, List.length_append, hinfos]
  obtain ⟨view, hview, hholds⟩ := ExecutedTrees.new_returns hdelta hcount
  constructor
  · refine safe_bind.mpr ⟨hsort.safe, fun sorted' hsort' => ?_⟩
    cases hsort'.eq hsort
    rw [hkeep]
    refine safe_bind.mpr ⟨calculate_safe hpad hbase.state
      ⟨txns.map env.parsed, sorted.newEpoch, cache⟩ hcovers, ?_⟩
    intro calculated hcalculated
    obtain ⟨epoch, -, rfl⟩ := (hcalculate calculated).mp hcalculated
    refine safe_bind.mpr ⟨hassemble.safe, fun toCommit' hassemble' => ?_⟩
    cases hassemble'.eq hassemble
    refine safe_bind.mpr ⟨(returns_expect.mpr happend).safe, fun accumulator happend' => ?_⟩
    cases Option.some.inj ((returns_expect.mp happend').symm.trans happend)
    exact safe_bind.mpr ⟨hview.safe, fun _ _ => safe_pure⟩
  · intro result hresult
    obtain ⟨sorted', hsort', hresult⟩ := returns_bind.mp hresult
    cases hsort'.eq hsort
    rw [hkeep] at hresult
    obtain ⟨calculated, hcalculated, hresult⟩ := returns_bind.mp hresult
    obtain ⟨epoch, -, rfl⟩ := (hcalculate calculated).mp hcalculated
    obtain ⟨toCommit', hassemble', hresult⟩ := returns_bind.mp hresult
    cases hassemble'.eq hassemble
    obtain ⟨accumulator, happend', hresult⟩ := returns_bind.mp hresult
    cases Option.some.inj ((returns_expect.mp happend').symm.trans happend)
    obtain ⟨view', hview', hresult⟩ := returns_bind.mp hresult
    cases hview'.eq hview
    cases returns_pure.mp hresult
    exact ⟨by rw [hdiscard, hretry], hcommit, hholds⟩

end Applying

end Anthemius.Executor

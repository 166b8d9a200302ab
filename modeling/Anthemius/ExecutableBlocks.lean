import Anthemius.ReleasePlan

/-!
# From a proposed block to the register that is executed

A proposal carries its transactions with gas estimates and a hint graph, or the proofs of
batches in the quorum store. The checks on a received block look at rounds, epochs, times and the
kind of payload. What is executed stands between a block metadata transaction, on which every
hint list is extended to depend, and a state checkpoint.
-/
namespace Anthemius
open CheckedLoops

abbrev Round := UInt64
abbrev Author := ℕ
abbrev HashValue := ℕ

/-- Estimates and indices are sent with 16 bits. -/
structure TransactionRegister.Fits {T : Type} (r : TransactionRegister T) : Prop where
  gas_lt : ∀ gas ∈ r.gasEstimates, gas < 2 ^ 16
  index_lt : ∀ deps ∈ r.dependencyGraph, ∀ k ∈ deps, k < 2 ^ 16

theorem TransactionRegister.Fits.empty {T : Type} :
    (TransactionRegister.empty : TransactionRegister T).Fits :=
  ⟨fun _ h => absurd h List.not_mem_nil, fun _ h => absurd h List.not_mem_nil⟩

inductive Payload (T B : Type)
  | directMempool (register : TransactionRegister T) (fits : register.Fits)
  | inQuorumStore (proofs : List B)

namespace Payload
variable {T B : Type}

def empty (quorumStoreEnabled : Bool) : Payload T B :=
  if quorumStoreEnabled then .inQuorumStore [] else .directMempool .empty .empty

def isEmpty : Payload T B → Bool
  | .directMempool register _ => register.txns.isEmpty
  | .inQuorumStore proofs => proofs.isEmpty

def display : Payload T B → String
  | .directMempool register _ => "InMemory txns: " ++ toString register.txns.length
  | .inQuorumStore proofs => "InMemory proofs: " ++ toString proofs.length

/-- The check of a payload, given how the proof of a batch is checked. -/
def verify (validator : B → Except String Unit) (quorumStoreEnabled : Bool)
    (payload : Payload T B) : Except String Unit :=
  match quorumStoreEnabled, payload with
  | false, .directMempool _ _ => .ok ()
  | true, .inQuorumStore proofs => proofs.forM validator
  | _, _ => .error ("Wrong payload type. Expected Payload::InQuorumStore " ++
      toString quorumStoreEnabled ++ " got " ++ payload.display ++ " ")

end Payload

/-- The block that a quorum certificate certifies. -/
structure BlockInfo where
  epoch : UInt64
  round : Round
  timestampUsecs : UInt64
  hasReconfiguration : Bool

structure QuorumCert where
  certifiedBlock : BlockInfo
  endsEpoch : Bool
  votersBitvec : List Bool

inductive BlockType (T B : Type)
  | proposal (payload : Payload T B) (author : Author) (failedAuthors : List (Round × Author))
  | nilBlock (failedAuthors : List (Round × Author))
  | genesis

structure Block (T B : Type) where
  id : HashValue
  epoch : UInt64
  round : Round
  timestampUsecs : UInt64
  quorumCert : QuorumCert
  blockType : BlockType T B

structure BlockMetadata where
  id : HashValue
  epoch : UInt64
  round : Round
  proposer : Author
  previousBlockVotesBitvec : List Bool
  failedProposerIndices : List ℕ
  timestampUsecs : UInt64

inductive Transaction (T W : Type)
  | userTransaction (txn : T)
  | genesisTransaction (writeSet : W)
  | blockMetadata (metadata : BlockMetadata)
  | stateCheckpoint (id : HashValue)

namespace Block
variable {T B W : Type} (b : Block T B)

def payload : Option (Payload T B) :=
  match b.blockType with
  | .proposal payload _ _ => some payload
  | .nilBlock _ | .genesis => none

def author : Option Author :=
  match b.blockType with
  | .proposal _ author _ => some author
  | .nilBlock _ | .genesis => none

def failedAuthors : Option (List (Round × Author)) :=
  match b.blockType with
  | .proposal _ _ failedAuthors | .nilBlock failedAuthors => some failedAuthors
  | .genesis => none

def isNilBlock : Bool :=
  match b.blockType with
  | .nilBlock _ => true
  | .proposal _ _ _ | .genesis => false

def isGenesisBlock : Bool :=
  match b.blockType with
  | .genesis => true
  | .proposal _ _ _ | .nilBlock _ => false

/-! ## Checks on a received block -/

/-- The outer `none` of a check is a panic. -/
def ensure (condition : Bool) (text : String) : ExceptT String Option Unit :=
  if condition then pure () else throw text

/-- An overflow panics. -/
def addU64 (a c : ℕ) : ExceptT String Option ℕ :=
  ExceptT.mk (if a + c < 2 ^ 64 then some (.ok (a + c)) else none)

/-- One round of the loop over failed authors, with the bound for the next one. -/
def verifyFailedAuthor (succRound bound : ℕ) (failed : Round × Author) :
    ExceptT String Option ℕ := do
  ensure (bound < failed.1.toNat && failed.1.toNat < succRound) "Incorrect round in failed authors"
  pure failed.1.toNat

def verifyFailedAuthors (failedAuthors : List (Round × Author)) : ExceptT String Option Unit := do
  let parentRound := b.quorumCert.certifiedBlock.round.toNat
  let succRound ← addU64 b.round.toNat b.isNilBlock.toNat
  ensure (parentRound + 1 ≤ succRound) "Block round is smaller than block's parent round"
  ensure (failedAuthors.length ≤ succRound - (parentRound + 1))
    "Block has more failed authors than missed rounds"
  let _ ← failedAuthors.foldlM (verifyFailedAuthor succRound) parentRound
  pure ()

/-- A block behind a reconfiguration has an empty payload. -/
def verifySuffix : ExceptT String Option Unit :=
  if b.quorumCert.certifiedBlock.hasReconfiguration then
    ensure (b.payload.all Payload.isEmpty) "Reconfiguration suffix should not carry payload"
  else pure ()

def verifyTimestamp (now : UInt64) : ExceptT String Option Unit :=
  let parent := b.quorumCert.certifiedBlock
  if b.isNilBlock || parent.hasReconfiguration then
    ensure (b.timestampUsecs == parent.timestampUsecs)
      "Nil/reconfig suffix block must have same timestamp as parent"
  else do
    ensure (parent.timestampUsecs < b.timestampUsecs)
      "Blocks must have strictly increasing timestamps"
    ensure (b.timestampUsecs.toNat ≤ min (now.toNat + 300000000) (2 ^ 64 - 1))
      "Blocks must not be too far in the future"

/-- The comparison of the block's identity with its hash is only made in debug builds. -/
def verifyWellFormed (now : UInt64) : ExceptT String Option Unit := do
  ensure (!b.isGenesisBlock) "We must not accept genesis from others"
  let parent := b.quorumCert.certifiedBlock
  ensure (parent.round < b.round) "Block must have a greater round than parent's block"
  ensure (parent.epoch == b.epoch) "block's parent should be in the same epoch"
  b.verifySuffix
  b.failedAuthors.forM b.verifyFailedAuthors
  b.verifyTimestamp now
  ensure (!b.quorumCert.endsEpoch) "Block cannot be proposed in an epoch that has ended"

/-- A block is accepted when it is well formed and its payload, if it has one, is verified. -/
structure Verified (now : UInt64) (validator : B → Except String Unit)
    (quorumStoreEnabled : Bool) : Prop where
  wellFormed : (b.verifyWellFormed now).run = some (.ok ())
  payload : ∀ payload ∈ b.payload, payload.verify validator quorumStoreEnabled = .ok ()

/-! ## Execution -/

/-- The transactions of a block, given the contents of the batches that proofs stand for. -/
def getTransactions (batch : B → List T) : List T :=
  match b.payload with
  | some (.directMempool register _) => register.txns
  | some (.inQuorumStore proofs) => proofs.flatMap batch
  | none => []

/-- The position of a validator; `none` is the panic for an author that is not one. -/
def failedAuthorIndex (validators : List Author) (author : Author) : Option ℕ :=
  (validators.idxOf? author).bind fun index => if index < 2 ^ 32 then some index else none

def newBlockMetadata (validators : List Author) : Option BlockMetadata := do
  let failedProposerIndices ←
    (b.failedAuthors.getD []).mapM fun failed => failedAuthorIndex validators failed.2
  pure {
    id := b.id
    epoch := b.epoch
    round := b.round
    proposer := b.author.getD 0
    previousBlockVotesBitvec := b.quorumCert.votersBitvec
    failedProposerIndices := failedProposerIndices
    timestampUsecs := b.timestampUsecs }

/-- The register that estimates and hints are taken from. -/
def txnRegister : TransactionRegister T :=
  match b.payload.getD (.empty false) with
  | .directMempool register _ => register
  | .inQuorumStore _ => .empty

/-- The index behind the block metadata; `none` is the panic on overflow. -/
def shiftIndex (k : TxnIndex) : Option TxnIndex := if k + 1 < 2 ^ 16 then some (k + 1) else none

def transactionsToExecute (validators : List Author) (txns : List T) :
    Option (TransactionRegister (Transaction T W)) := do
  let metadata ← b.newBlockMetadata validators
  let graph ← b.txnRegister.dependencyGraph.mapM fun deps =>
    (deps.mapM shiftIndex).map (· ++ [0])
  pure {
    txns := .blockMetadata metadata :: (txns.map .userTransaction ++ [.stateCheckpoint b.id])
    gasEstimates := 10 :: (b.txnRegister.gasEstimates ++ [10])
    dependencyGraph := [] :: (graph ++ [[0]]) }

theorem shiftIndex_eq_some (k k' : ℕ) :
    shiftIndex k = some k' ↔ k + 1 < 2 ^ 16 ∧ k' = k + 1 := by
  unfold shiftIndex
  split <;> simp_all [eq_comm]

theorem failedAuthorIndex_eq_some (validators : List Author) (author : Author) (index : ℕ) :
    failedAuthorIndex validators author = some index ↔
      (author ∈ validators ∧ validators.idxOf author < 2 ^ 32) ∧
        index = validators.idxOf author := by
  rw [failedAuthorIndex, List.idxOf_eq_getD_idxOf?]
  cases h : validators.idxOf? author with
  | none => simp [List.idxOf?_eq_none_iff.mp h]
  | some i =>
    have hmem : author ∈ validators := by
      by_contra hnot
      rw [List.idxOf?_eq_none_iff.mpr hnot] at h
      cases h
    simp [hmem, eq_comm]

/-- The failed authors of the block are among the validators. -/
def AuthorsKnown (validators : List Author) : Prop :=
  ∀ failed ∈ b.failedAuthors.getD [],
    failed.2 ∈ validators ∧ validators.idxOf failed.2 < 2 ^ 32

theorem exists_newBlockMetadata (validators : List Author) :
    (∃ metadata, b.newBlockMetadata validators = some metadata) ↔ b.AuthorsKnown validators := by
  have hindices := mapM_checked (fun failed : Round × Author =>
    failedAuthorIndex_eq_some validators failed.2) (b.failedAuthors.getD [])
  simp only [newBlockMetadata, Option.bind_eq_bind, Option.bind_eq_some_iff, hindices]
  constructor
  · rintro ⟨_, _, ⟨hknown, -⟩, -⟩
    exact hknown
  · intro hknown
    exact ⟨_, _, ⟨hknown, rfl⟩, rfl⟩

/-- The graph of the block behind its metadata transaction. -/
def shiftedGraph (graph : List (List TxnIndex)) : List (List TxnIndex) :=
  [] :: (graph.map (fun deps => deps.map (· + 1) ++ [0]) ++ [[0]])

/-- When execution gets a register, and which one. -/
theorem transactionsToExecute_eq_some {validators : List Author} {txns : List T}
    {r : TransactionRegister (Transaction T W)} :
    b.transactionsToExecute validators txns = some r ↔
      (∀ deps ∈ b.txnRegister.dependencyGraph, ∀ k ∈ deps, k + 1 < 2 ^ 16) ∧
      ∃ metadata, b.newBlockMetadata validators = some metadata ∧ r = {
        txns := .blockMetadata metadata :: (txns.map .userTransaction ++ [.stateCheckpoint b.id])
        gasEstimates := 10 :: (b.txnRegister.gasEstimates ++ [10])
        dependencyGraph := shiftedGraph b.txnRegister.dependencyGraph } := by
  have hdeps (deps deps' : List ℕ) : (deps.mapM shiftIndex).map (· ++ [0]) = some deps' ↔
      (∀ k ∈ deps, k + 1 < 2 ^ 16) ∧ deps' = deps.map (· + 1) ++ [0] := by
    simp only [Option.map_eq_some_iff, mapM_checked shiftIndex_eq_some]
    constructor
    · rintro ⟨_, ⟨hfit, rfl⟩, rfl⟩
      exact ⟨hfit, rfl⟩
    · rintro ⟨hfit, rfl⟩
      exact ⟨_, ⟨hfit, rfl⟩, rfl⟩
  simp only [transactionsToExecute, Option.bind_eq_bind, Option.bind_eq_some_iff,
    mapM_checked hdeps, Option.pure_def, Option.some.injEq]
  constructor
  · rintro ⟨metadata, hmetadata, _, ⟨hfit, rfl⟩, rfl⟩
    exact ⟨hfit, metadata, hmetadata, rfl⟩
  · rintro ⟨hfit, metadata, hmetadata, rfl⟩
    exact ⟨metadata, hmetadata, _, ⟨hfit, rfl⟩, rfl⟩

theorem succ_mem_shiftedGraph (graph : List (List ℕ)) (j k : ℕ) :
    k + 1 ∈ (shiftedGraph graph).getD (j + 1) [] ↔ k ∈ graph.getD j [] := by
  rw [shiftedGraph, List.getD_cons_succ]
  rcases lt_or_ge j graph.length with hj | hj
  · rw [List.getD_append _ _ _ _ (by rwa [List.length_map]),
      List.getD_eq_getElem _ _ (by rwa [List.length_map]), List.getD_eq_getElem _ _ hj]
    simp
  · rw [List.getD_append_right _ _ _ _ (by rwa [List.length_map]), List.getD_eq_default _ _ hj]
    cases j - (graph.map fun deps => deps.map (· + 1) ++ [0]).length <;> simp

theorem txnRegister_fits : b.txnRegister.Fits := by
  unfold txnRegister
  split
  · rename_i register fits _
    exact fits
  · exact .empty

end Block

/-- What the scheduler takes for granted about a register, and how its graph comes from the
hints of a payload. -/
structure TransactionRegister.MeetsContract {X : Type} (r : TransactionRegister X)
    (hints : List (List TxnIndex)) : Prop where
  gas_length : r.gasEstimates.length = r.txns.length
  graph_length : r.dependencyGraph.length = r.txns.length
  earlier : ∀ i < r.txns.length, ∀ d ∈ r.dependencyGraph.getD i [], d < i
  shifted : ∀ j k : ℕ, k + 1 ∈ r.dependencyGraph.getD (j + 1) [] ↔ k ∈ hints.getD j []
  scheduled : ∃ p, Plan.new r.txns.length r.dependencyGraph r.gasEstimates = some p ∧
    ∀ d i : ℕ, i ∈ p.criticalPathParent d → d < i

namespace Block
variable {T B W : Type} (b : Block T B) {validators : List Author} {txns : List T}

/-- What a payload has to keep to for its block to be executed. -/
structure Hinted (validators : List Author) (txns : List T) : Prop where
  authors : b.AuthorsKnown validators
  gas_length : b.txnRegister.gasEstimates.length = txns.length
  graph_length : b.txnRegister.dependencyGraph.length = txns.length
  earlier : ∀ j < txns.length, ∀ k ∈ b.txnRegister.dependencyGraph.getD j [], k < j ∧ k + 1 < 2 ^ 16

section Hinted
variable {b}

theorem Hinted.bounds (h : b.Hinted validators txns) {j k : ℕ}
    (hk : k ∈ b.txnRegister.dependencyGraph.getD j []) : k < j ∧ k + 1 < 2 ^ 16 := by
  rcases lt_or_ge j txns.length with hj | hj
  · exact h.earlier j hj k hk
  · rw [List.getD_eq_default _ _ (h.graph_length ▸ hj)] at hk
    cases hk

/-- The hints behind the metadata transaction. -/
def Hinted.graph (h : b.Hinted validators txns) : HintGraph where
  dependencies := shiftedGraph b.txnRegister.dependencyGraph
  gasEstimates := 10 :: (b.txnRegister.gasEstimates ++ [10])
  length_eq := by simp [shiftedGraph, h.gas_length, h.graph_length]
  earlier i _ k hk := by
    cases i with
    | zero => cases hk
    | succ j =>
      cases k with
      | zero => exact j.succ_pos
      | succ k => exact Nat.succ_lt_succ (h.bounds ((succ_mem_shiftedGraph _ j k).mp hk)).1
  index_lt i _ k hk := by
    cases i with
    | zero => cases hk
    | succ j =>
      cases k with
      | zero => exact Nat.two_pow_pos 16
      | succ k => exact (h.bounds ((succ_mem_shiftedGraph _ j k).mp hk)).2
  gas_lt gas hgas := by
    simp only [List.mem_cons, List.mem_append, List.not_mem_nil, or_false] at hgas
    rcases hgas with rfl | hgas | rfl
    · decide
    · exact b.txnRegister_fits.gas_lt gas hgas
    · decide

end Hinted

/-- A block is executed as the scheduler expects just when its payload keeps to the contract,
whatever its checks were. -/
theorem meetsContract_iff :
    (∃ r : TransactionRegister (Transaction T W), b.transactionsToExecute validators txns = some r ∧
      r.MeetsContract b.txnRegister.dependencyGraph) ↔ b.Hinted validators txns := by
  constructor
  · rintro ⟨r, hr, hc⟩
    obtain ⟨hfit, metadata, hmetadata, rfl⟩ := b.transactionsToExecute_eq_some.mp hr
    have hgas : b.txnRegister.gasEstimates.length = txns.length := by simpa using hc.gas_length
    have hgraph : b.txnRegister.dependencyGraph.length = txns.length := by
      simpa [shiftedGraph] using hc.graph_length
    refine ⟨(b.exists_newBlockMetadata validators).mp ⟨metadata, hmetadata⟩, hgas, hgraph, ?_⟩
    intro j hj k hk
    have hlt : k + 1 < j + 1 := by
      refine hc.earlier (j + 1) ?_ (k + 1) ((succ_mem_shiftedGraph _ j k).mpr hk)
      simpa using Nat.lt_succ_of_lt hj
    refine ⟨Nat.lt_of_succ_lt_succ hlt, hfit _ ?_ k hk⟩
    rw [List.getD_eq_getElem _ _ (hgraph ▸ hj)]
    exact List.getElem_mem _
  · intro h
    obtain ⟨metadata, hmetadata⟩ := (b.exists_newBlockMetadata validators).mpr h.authors
    obtain ⟨p, hp, -, hcomputes⟩ := h.graph.new_isCost
    have hlen : h.graph.dependencies.length = txns.length + 2 := by
      simp [Hinted.graph, shiftedGraph, h.graph_length]
    rw [hlen] at hp hcomputes
    have hfit : ∀ deps ∈ b.txnRegister.dependencyGraph, ∀ k ∈ deps, k + 1 < 2 ^ 16 := by
      intro deps hdeps k hk
      obtain ⟨j, hj, rfl⟩ := List.getElem_of_mem hdeps
      refine (h.bounds (j := j) ?_).2
      rwa [List.getD_eq_getElem _ _ hj]
    refine ⟨_, b.transactionsToExecute_eq_some.mpr ⟨hfit, metadata, hmetadata, rfl⟩, ?_⟩
    have htxns : (Transaction.blockMetadata metadata ::
        (txns.map (.userTransaction : T → Transaction T W) ++ [.stateCheckpoint b.id])).length =
        txns.length + 2 := by simp
    refine ⟨by simp [h.gas_length], hlen.trans htxns.symm, fun i hi => ?_,
      succ_mem_shiftedGraph _, p, htxns ▸ hp, fun d i hi => ?_⟩
    · exact h.graph.earlier i (hlen ▸ htxns ▸ hi)
    · obtain ⟨hi, hd⟩ := hcomputes.mem_of_kept hi
      exact h.graph.earlier i (hlen ▸ hi) d hd

end Block

/-! ## The checks do not look at the hints -/

section Hints
variable {T B : Type} {gas : List ℕ} {graph : List (List TxnIndex)}

def Payload.withHints (h : (⟨[], gas, graph⟩ : TransactionRegister T).Fits) :
    Payload T B → Payload T B
  | .directMempool register _ => .directMempool ⟨register.txns, gas, graph⟩ ⟨h.gas_lt, h.index_lt⟩
  | .inQuorumStore proofs => .inQuorumStore proofs

def BlockType.withHints (h : (⟨[], gas, graph⟩ : TransactionRegister T).Fits) :
    BlockType T B → BlockType T B
  | .proposal payload author failedAuthors => .proposal (payload.withHints h) author failedAuthors
  | .nilBlock failedAuthors => .nilBlock failedAuthors
  | .genesis => .genesis

def Block.withHints (b : Block T B) (h : (⟨[], gas, graph⟩ : TransactionRegister T).Fits) :
    Block T B :=
  { b with blockType := b.blockType.withHints h }

/-- A block stays accepted with any other estimates and hints. -/
theorem Block.Verified.withHints {b : Block T B} {now : UInt64}
    {validator : B → Except String Unit} {quorumStoreEnabled : Bool}
    (hv : b.Verified now validator quorumStoreEnabled)
    (h : (⟨[], gas, graph⟩ : TransactionRegister T).Fits) :
    (b.withHints h).Verified now validator quorumStoreEnabled := by
  obtain ⟨id, epoch, round, timestamp, qc, blockType⟩ := b
  obtain ⟨hform, hpayload⟩ := hv
  cases blockType with
  | proposal payload author failedAuthors =>
    cases payload with
    | directMempool register fits =>
      refine ⟨hform, ?_⟩
      intro payload hp
      cases hp
      have hold := hpayload _ rfl
      cases quorumStoreEnabled with
      | false => rfl
      | true => cases hold
    | inQuorumStore proofs => exact ⟨hform, hpayload⟩
  | nilBlock failedAuthors => exact ⟨hform, hpayload⟩
  | genesis => exact ⟨hform, hpayload⟩

end Hints

/-- A proposal in the round after its parent's. -/
def proposalOf (payload : Payload ℕ ℕ) : Block ℕ ℕ where
  id := 9
  epoch := 1
  round := 5
  timestampUsecs := 70
  quorumCert := ⟨⟨1, 4, 60, false⟩, false, [true]⟩
  blockType := .proposal payload 3 []

theorem verified_proposalOf {payload : Payload ℕ ℕ} {enabled : Bool}
    (h : payload.verify (fun _ => .ok ()) enabled = .ok ()) :
    (proposalOf payload).Verified 65 (fun _ => .ok ()) enabled := by
  refine ⟨rfl, ?_⟩
  intro payload' hp
  cases hp
  exact h

/-- A batch from the quorum store comes without hints. -/
def storedPayload : Payload ℕ ℕ := .inQuorumStore [8]

/-- A transaction that is hinted to wait for itself. -/
def selfHinted : Payload ℕ ℕ := .directMempool ⟨[41], [6], [[0]]⟩ ⟨by decide, by decide⟩

/-- Both blocks are accepted. For the first one the constructor of the scheduler panics; in the
second one the transaction waits for itself. -/
theorem not_meetsContract_proposalOf :
    ((proposalOf storedPayload).Verified 65 (fun _ => .ok ()) true ∧
      ∃ r : TransactionRegister (Transaction ℕ Unit),
        (proposalOf storedPayload).transactionsToExecute [3]
          ((proposalOf storedPayload).getTransactions fun _ => [41]) = some r ∧
        r.txns.length = 3 ∧ Plan.new r.txns.length r.dependencyGraph r.gasEstimates = none) ∧
    (proposalOf selfHinted).Verified 65 (fun _ => .ok ()) false ∧
      ∃ r : TransactionRegister (Transaction ℕ Unit),
        (proposalOf selfHinted).transactionsToExecute [3]
          ((proposalOf selfHinted).getTransactions fun _ => []) = some r ∧
        r.txns.length = 3 ∧ r.dependencyGraph = [[], [1, 0], [0]] :=
  ⟨⟨verified_proposalOf rfl, _, rfl, rfl, by decide⟩, verified_proposalOf rfl, _, rfl, rfl, rfl⟩

/-- Two transactions, the second of which waits for the first. -/
def pairPayload : Payload ℕ ℕ := .directMempool ⟨[41, 42], [6, 7], [[], [0]]⟩ ⟨by decide, by decide⟩

theorem meetsContract_pairPayload : ∃ r : TransactionRegister (Transaction ℕ Unit),
    (proposalOf pairPayload).transactionsToExecute [3] [41, 42] = some r ∧
    r.MeetsContract [[], [0]] := by
  have hknown : (proposalOf pairPayload).AuthorsKnown [3] := fun _ h => absurd h List.not_mem_nil
  exact (proposalOf pairPayload).meetsContract_iff.mpr ⟨hknown, rfl, rfl, by decide⟩

end Anthemius

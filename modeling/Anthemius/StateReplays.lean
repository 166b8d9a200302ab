import Anthemius.StateProgress

/-!
# Chunks and restarts

Chunks that are calculated one after the other lead to the same state as all transactions at once,
and so does the replay of the write sets after an earlier checkpoint.
-/
namespace Anthemius.StateStore

open EntryMaps Outcomes InMemoryStateCalculator

variable {R K V P H E ε : Type} [DecidableEq K]

namespace StateDelta

/-- The two trees, the versions and the updates are those of the progress. -/
structure Realises (sizes : Sizes K V) (Represents : R → (K → Option V) → Prop)
    (delta : StateDelta (SparseMerkleTree R) K V) (a : Progress K V) : Prop where
  base : delta.base.IsTree sizes Represents a.checkpoint
  baseVersion : delta.baseVersion = versionBefore a.checkpointCount
  current : delta.current.IsTree sizes Represents a.current
  currentVersion : delta.currentVersion = versionBefore a.count
  updates : ∀ k, get k delta.updatesSinceBase = a.since k
  le : a.checkpointCount ≤ a.count

/-- Equal roots and versions, and the same updates as a map. -/
structure Same (pad : Scratchpad R K V P H ε)
    (delta delta' : StateDelta (SparseMerkleTree R) K V) : Prop where
  baseRoot : delta.base.rootHash pad = delta'.base.rootHash pad
  baseVersion : delta.baseVersion = delta'.baseVersion
  currentRoot : delta.current.rootHash pad = delta'.current.rootHash pad
  currentVersion : delta.currentVersion = delta'.currentVersion
  updates : ∀ k, get k delta.updatesSinceBase = get k delta'.updatesSinceBase

def newAtCheckpoint (tree : SparseMerkleTree R) (checkpointVersion : Option ℕ) :
    StateDelta (SparseMerkleTree R) K V where
  base := tree
  baseVersion := checkpointVersion
  current := tree
  currentVersion := checkpointVersion
  updatesSinceBase := []

end StateDelta

section Deltas
variable {pad : Scratchpad R K V P H ε} {Represents : R → (K → Option V) → Prop}
  {Proves : P → R → K → Prop} {mapHash : (K → Option V) → H} {touched : K → Prop}
  {delta delta' : StateDelta (SparseMerkleTree R) K V} {a : Progress K V}

theorem StateDelta.Realises.same (hpad : pad.Sound Represents Proves mapHash)
    (h : delta.Realises pad.sizes Represents a) (h' : delta'.Realises pad.sizes Represents a) :
    delta.Same pad delta' where
  baseRoot := (hpad.hash_eq h.base.represents).trans (hpad.hash_eq h'.base.represents).symm
  baseVersion := h.baseVersion.trans h'.baseVersion.symm
  currentRoot :=
    (hpad.hash_eq h.current.represents).trans (hpad.hash_eq h'.current.represents).symm
  currentVersion := h.currentVersion.trans h'.currentVersion.symm
  updates k := (h.updates k).trans (h'.updates k).symm

theorem nextVersion_versionBefore (n : ℕ) : nextVersion (versionBefore n) = n := by
  cases n <;> rfl

/-- The cache has the current values of the touched keys, and the proofs cover them. -/
structure StateCache.Covers (Proves : P → R → K → Prop) (cache : StateCache K V P)
    (delta : StateDelta (SparseMerkleTree R) K V) (m : K → Option V) (touched : K → Prop) :
    Prop where
  cached : ∀ k, touched k → get k cache.stateCache = some (m k)
  proofs : ∀ k, touched k → Proves cache.proofs delta.current.root k

theorem StateDelta.Realises.new (h : delta.Realises pad.sizes Represents a)
    {cache : StateCache K V P} (hcache : cache.Covers Proves delta a.current touched) :
    (InMemoryStateCalculator.new delta cache).Tracks pad.sizes Represents Proves touched a where
  checkpoint := h.base
  checkpointVersion := h.baseVersion
  latest := ⟨a.current, h.current, rfl⟩
  distinct := List.nodup_nil
  since := h.updates
  usage := h.current.usage
  next := by
    change nextVersion delta.currentVersion = a.count
    rw [h.currentVersion, nextVersion_versionBefore]
  le := h.le
  cached := hcache.cached
  written k hk := absurd rfl hk
  proofs := hcache.proofs

/-- The accounts in a cache. -/
def accounts (cache : List (K × Option V)) : List (K × V) :=
  cache.filterMap fun entry => entry.2.map fun value => (entry.1, value)

theorem InMemoryStateCalculator.Tracks.finish (hpad : pad.Sound Represents Proves mapHash)
    {c : InMemoryStateCalculator R K V P} (h : c.Tracks pad.sizes Represents Proves touched a) :
    ∃ delta, Returns (c.finish pad) (delta, accounts c.stateCache) ∧
      delta.Realises pad.sizes Represents a := by
  obtain ⟨tree, hupdate, htree, -⟩ := h.batchUpdate hpad
  have hle : StateStore.nextVersion c.checkpointVersion ≤
      StateStore.nextVersion (versionBefore c.nextVersion) := by
    rw [h.checkpointVersion, nextVersion_versionBefore, nextVersion_versionBefore, h.next]
    exact h.le
  refine ⟨_, returns_bind.mpr ⟨tree, hupdate, returns_bind.mpr
    ⟨(), returns_assert.mpr hle, returns_pure.mpr rfl⟩⟩, ?_⟩
  exact {
    base := h.checkpoint
    baseVersion := h.checkpointVersion
    current := htree
    currentVersion := congrArg versionBefore h.next
    updates := fun k => h.distinct.get_extend.trans (h.since k)
    le := h.le }

end Deltas

/-! ## Replays -/

/-- The index of the last transaction that makes a checkpoint. -/
def lastCheckpointIndex : List (KeptTransaction K V) → Option ℕ
  | [] => none
  | txn :: rest =>
    match lastCheckpointIndex rest with
    | some index => some (index + 1)
    | none => if endsCheckpoint txn.1 txn.2 then some 0 else none

namespace Progress
variable {a : Progress K V}

/-- One checkpoint, after the given index. -/
def replay (a : Progress K V) (lastCheckpointIndex : Option ℕ) (writeSets : List (WriteSet K V)) :
    Progress K V :=
  match lastCheckpointIndex with
  | none => a.addAll writeSets
  | some index => (a.addAll (writeSets.take (index + 1))).mark.addAll (writeSets.drop (index + 1))

/-- Nothing was written since the last checkpoint. -/
def AtCheckpoint (a : Progress K V) : Prop :=
  a.checkpointCount = a.count ∧ ∀ k, a.since k = none

theorem run_append {txns txns' : List (KeptTransaction K V)} :
    a.run (txns ++ txns') = (a.run txns).run txns' :=
  List.foldl_append

theorem checkpointHashes_append {mapHash : (K → Option V) → H}
    {txns txns' : List (KeptTransaction K V)} :
    a.checkpointHashes mapHash (txns ++ txns') =
      a.checkpointHashes mapHash txns ++ (a.run txns).checkpointHashes mapHash txns' := by
  induction txns generalizing a with
  | nil => rfl
  | cons txn rest ih =>
    rw [List.cons_append, checkpointHashes, ih]
    rfl

/-- A checkpoint forgets where the earlier ones were. -/
theorem addAll_mark_congr {b : Progress K V} (hcurrent : a.current = b.current)
    (hcount : a.count = b.count) (writeSets : List (WriteSet K V)) :
    (a.addAll writeSets).mark = (b.addAll writeSets).mark := by
  induction writeSets generalizing a b with
  | nil =>
    change a.mark = b.mark
    rw [mark, mark, hcurrent, hcount]
  | cons writeSet rest ih =>
    refine ih ?_ (congrArg (· + 1) hcount)
    rw [current_add, current_add, hcurrent]

/-- The last checkpoint is the only one that matters. -/
theorem run_eq_replay (a : Progress K V) (txns : List (KeptTransaction K V)) :
    a.run txns = a.replay (lastCheckpointIndex txns) (txns.map fun txn => txn.2.writeSet) := by
  induction txns generalizing a with
  | nil => rfl
  | cons txn rest ih =>
    change (a.transaction txn).run rest = _
    rw [ih, lastCheckpointIndex, List.map_cons, transaction]
    rcases lastCheckpointIndex rest with _ | index
    · by_cases hends : endsCheckpoint txn.1 txn.2
      · rw [if_pos hends, if_pos hends]
        rfl
      · rw [if_neg hends, if_neg hends]
        rfl
    · by_cases hends : endsCheckpoint txn.1 txn.2
      · rw [if_pos hends]
        have hmark := addAll_mark_congr (a := (a.add txn.2.writeSet.updates).mark)
          (b := a.add txn.2.writeSet.updates) current_mark rfl
        exact congrArg (addAll · _) (hmark _)
      · rw [if_neg hends]
        rfl

omit [DecidableEq K] in
theorem AtCheckpoint.current_eq (h : a.AtCheckpoint) : a.current = a.checkpoint := by
  funext k
  rw [current, h.2 k]
  rfl

omit [DecidableEq K] in
theorem lastCheckpointIndex_lt {txns : List (KeptTransaction K V)} {index : ℕ}
    (h : lastCheckpointIndex txns = some index) : index < txns.length := by
  induction txns generalizing index with
  | nil => cases h
  | cons txn rest ih =>
    rw [lastCheckpointIndex] at h
    rcases hrest : lastCheckpointIndex rest with _ | last
    · rw [hrest] at h
      dsimp only at h
      split at h
      · cases h
        exact Nat.succ_pos _
      · cases h
    · rw [hrest] at h
      cases h
      exact Nat.succ_lt_succ (ih hrest)

end Progress

section Replays
variable {pad : Scratchpad R K V P H ε} {Represents : R → (K → Option V) → Prop}
  {Proves : P → R → K → Prop} {mapHash : (K → Option V) → H} {touched : K → Prop}
  {a : Progress K V}

theorem newAtCheckpoint_realises {tree : SparseMerkleTree R}
    (htree : tree.IsTree pad.sizes Represents a.current) (h : a.AtCheckpoint) :
    (StateDelta.newAtCheckpoint tree (versionBefore a.count)).Realises pad.sizes Represents a where
  base := h.current_eq ▸ htree
  baseVersion := congrArg versionBefore h.1.symm
  current := htree
  currentVersion := rfl
  updates k := (h.2 k).symm
  le := h.1.le

theorem InMemoryStateCalculator.Tracks.addUntilCheckpoint
    (hpad : pad.Sound Represents Proves mapHash) {c : InMemoryStateCalculator R K V P}
    (h : c.Tracks pad.sizes Represents Proves touched a) {writeSets : List (WriteSet K V)}
    (htouched : ∀ writeSet ∈ writeSets, ∀ k ∈ writeSet.ops.map Prod.fst, touched k)
    (lastCheckpointIndex : Option ℕ) :
    ∃ c' updates, Returns (c.addUntilCheckpoint pad (lastCheckpointIndex.elim 0 (· + 1)) writeSets)
        (c', updates) ∧
      c'.Tracks pad.sizes Represents Proves touched (match lastCheckpointIndex with
        | none => a
        | some index => (a.addAll (writeSets.take (index + 1))).mark) := by
  unfold InMemoryStateCalculator.addUntilCheckpoint
  cases lastCheckpointIndex with
  | none => exact ⟨c, none, returns_pure.mpr rfl, h⟩
  | some index =>
    obtain ⟨c₁, hadd, hc₁⟩ := h.addWriteSets (writeSets.take (index + 1))
      fun writeSet hwriteSet => htouched writeSet (List.mem_of_mem_take hwriteSet)
    obtain ⟨c₂, hcheckpoint, hc₂, -⟩ := hc₁.makeCheckpoint hpad
    refine ⟨c₂, some c₁.updatesAfterLatest, ?_, hc₂⟩
    have hindex : (some index).elim 0 (· + 1) ≠ 0 := Nat.succ_ne_zero index
    rw [if_neg hindex]
    exact returns_bind.mpr ⟨c₁, hadd, returns_bind.mpr ⟨_, hcheckpoint, returns_pure.mpr rfl⟩⟩

theorem calculateForWriteSets_spec (hpad : pad.Sound Represents Proves mapHash)
    {base : StateDelta (SparseMerkleTree R) K V} (hbase : base.Realises pad.sizes Represents a)
    {cache : StateCache K V P} (hcache : cache.Covers Proves base a.current touched)
    {writeSets : List (WriteSet K V)}
    (htouched : ∀ writeSet ∈ writeSets, ∀ k ∈ writeSet.ops.map Prod.fst, touched k)
    {lastCheckpointIndex : Option ℕ}
    (hindex : ∀ index, lastCheckpointIndex = some index → index < writeSets.length) :
    ∃ updates delta, Returns ((InMemoryStateCalculator.new base
        cache).calculateForWriteSetsAfterSnapshot pad lastCheckpointIndex writeSets)
        (updates, delta) ∧
      delta.Realises pad.sizes Represents (a.replay lastCheckpointIndex writeSets) := by
  have hrange : lastCheckpointIndex.elim 0 (· + 1) ≤ writeSets.length := by
    cases lastCheckpointIndex with
    | none => exact Nat.zero_le _
    | some index => exact hindex index rfl
  obtain ⟨c₁, updates, huntil, hc₁⟩ :=
    (hbase.new hcache).addUntilCheckpoint hpad htouched lastCheckpointIndex
  obtain ⟨c₂, hafter, hc₂⟩ := hc₁.addWriteSets
    (writeSets.drop (lastCheckpointIndex.elim 0 (· + 1))) fun writeSet hwriteSet =>
      htouched writeSet (List.mem_of_mem_drop hwriteSet)
  obtain ⟨delta, hfinish, hdelta⟩ := hc₂.finish hpad
  refine ⟨updates, delta, returns_bind.mpr ⟨(), returns_assert.mpr hrange, returns_bind.mpr
    ⟨_, huntil, returns_bind.mpr ⟨c₂, hafter, returns_bind.mpr ⟨_, hfinish,
      returns_pure.mpr rfl⟩⟩⟩⟩, ?_⟩
  cases lastCheckpointIndex with
  | none => exact hdelta
  | some index => exact hdelta

end Replays

/-! ## Chunks -/

structure Chunk (K V P : Type) where
  toKeep : List (KeptTransaction K V)
  newEpoch : Bool
  cache : StateCache K V P

namespace Chunk

def touched (chunk : Chunk K V P) (k : K) : Prop :=
  ∃ txn ∈ chunk.toKeep, k ∈ txn.2.writeSet.ops.map Prod.fst

def calculate (pad : Scratchpad R K V P H ε) (parseValidatorSet : List (K × V) → Option E)
    (base : StateDelta (SparseMerkleTree R) K V) (chunk : Chunk K V P) :
    Outcome (CalculatorError ε) (ChunkResult R K V H E) :=
  (InMemoryStateCalculator.new base chunk.cache).calculateForTransactionChunk pad parseValidatorSet
    chunk.toKeep chunk.newEpoch

/-- The updates and hashes of all chunks, and the last state. -/
def calculateAll (pad : Scratchpad R K V P H ε) (parseValidatorSet : List (K × V) → Option E) :
    List (Chunk K V P) → StateDelta (SparseMerkleTree R) K V →
      Outcome (CalculatorError ε)
        (List (List (K × Option V)) × List (Option H) × StateDelta (SparseMerkleTree R) K V)
  | [], base => pure ([], [], base)
  | chunk :: rest, base => do
    let result ← chunk.calculate pad parseValidatorSet base
    let (updatesVec, hashes, last) ← calculateAll pad parseValidatorSet rest result.resultState
    pure (result.stateUpdatesVec ++ updatesVec, result.stateCheckpointHashes ++ hashes, last)

/-- A new epoch is announced only if its validator set can be read. -/
def EpochReadable (parseValidatorSet : List (K × V) → Option E) (chunk : Chunk K V P) : Prop :=
  chunk.newEpoch = true → (parseValidatorSet (accounts (extend chunk.cache.stateCache
    (chunk.toKeep.flatMap fun txn => txn.2.writeSet.updates)))).isSome

/-- Every chunk gets a cache with the values that are current when its turn comes. -/
def Prepared (pad : Scratchpad R K V P H ε) (Proves : P → R → K → Prop)
    (parseValidatorSet : List (K × V) → Option E) :
    List (Chunk K V P) → StateDelta (SparseMerkleTree R) K V → Progress K V → Prop
  | [], _, _ => True
  | chunk :: rest, base, a =>
    chunk.cache.Covers Proves base a.current chunk.touched ∧
      chunk.EpochReadable parseValidatorSet ∧
      ∀ result, Returns (chunk.calculate pad parseValidatorSet base) result →
        Prepared pad Proves parseValidatorSet rest result.resultState (a.run chunk.toKeep)

section Chunks
variable {pad : Scratchpad R K V P H ε} {Represents : R → (K → Option V) → Prop}
  {Proves : P → R → K → Prop} {mapHash : (K → Option V) → H}
  {parseValidatorSet : List (K × V) → Option E} {base : StateDelta (SparseMerkleTree R) K V}
  {a : Progress K V}

omit [DecidableEq K] in
theorem returns_readEpochState {newEpoch : Bool} {values : List (K × V)}
    (h : newEpoch = true → (parseValidatorSet values).isSome) :
    ∃ epoch, Returns (readEpochState parseValidatorSet newEpoch values :
      Outcome (CalculatorError ε) _) epoch := by
  unfold readEpochState
  cases newEpoch with
  | false => exact ⟨none, returns_pure.mpr rfl⟩
  | true =>
    obtain ⟨epoch, hepoch⟩ := Option.isSome_iff_exists.mp (h rfl)
    exact ⟨some epoch, returns_map.mpr ⟨epoch, returns_orElse.mpr hepoch, rfl⟩⟩

/-- Everything but the validator set is known before the call. -/
theorem calculate_returns (hpad : pad.Sound Represents Proves mapHash)
    (hbase : base.Realises pad.sizes Represents a) (chunk : Chunk K V P)
    (parseValidatorSet : List (K × V) → Option E)
    (hcache : chunk.cache.Covers Proves base a.current chunk.touched) :
    ∃ delta, delta.Realises pad.sizes Represents (a.run chunk.toKeep) ∧
      ∀ result, Returns (chunk.calculate pad parseValidatorSet base) result ↔
        ∃ epoch, Returns (readEpochState parseValidatorSet chunk.newEpoch (accounts (extend
          chunk.cache.stateCache (chunk.toKeep.flatMap fun txn => txn.2.writeSet.updates))) :
            Outcome (CalculatorError ε) _) epoch ∧
          result = ⟨chunk.toKeep.map fun txn => txn.2.writeSet.updates,
            a.checkpointHashes mapHash chunk.toKeep, delta, epoch⟩ := by
  obtain ⟨c, hadd, hc, hstateCache⟩ := (hbase.new hcache).addTransactions hpad chunk.toKeep
    fun txn htxn k hk => ⟨txn, htxn, hk⟩
  obtain ⟨delta, hfinish, hdelta⟩ := hc.finish hpad
  rw [hstateCache] at hfinish
  refine ⟨delta, hdelta, fun result => ?_⟩
  constructor
  · intro h
    obtain ⟨added, hadd', h⟩ := returns_bind.mp h
    cases hadd'.eq hadd
    obtain ⟨finished, hfinish', h⟩ := returns_bind.mp h
    cases hfinish'.eq hfinish
    obtain ⟨epoch, hread, h⟩ := returns_bind.mp h
    exact ⟨epoch, hread, (returns_pure.mp h).symm⟩
  · rintro ⟨epoch, hread, rfl⟩
    exact returns_bind.mpr ⟨_, hadd, returns_bind.mpr ⟨_, hfinish, returns_bind.mpr
      ⟨epoch, hread, returns_pure.mpr rfl⟩⟩⟩

theorem calculate_spec (hpad : pad.Sound Represents Proves mapHash)
    (hbase : base.Realises pad.sizes Represents a) {chunk : Chunk K V P}
    (hcache : chunk.cache.Covers Proves base a.current chunk.touched)
    (hepoch : chunk.EpochReadable parseValidatorSet) :
    ∃ result, Returns (chunk.calculate pad parseValidatorSet base) result ∧
      result.stateUpdatesVec = chunk.toKeep.map (fun txn => txn.2.writeSet.updates) ∧
      result.stateCheckpointHashes = a.checkpointHashes mapHash chunk.toKeep ∧
      result.resultState.Realises pad.sizes Represents (a.run chunk.toKeep) := by
  obtain ⟨delta, hdelta, hreturns⟩ :=
    calculate_returns hpad hbase chunk parseValidatorSet hcache
  obtain ⟨epoch, hread⟩ := returns_readEpochState (ε := ε) hepoch
  exact ⟨_, (hreturns _).mpr ⟨epoch, hread, rfl⟩, rfl, rfl, hdelta⟩

theorem calculateAll_spec (hpad : pad.Sound Represents Proves mapHash)
    (hbase : base.Realises pad.sizes Represents a) {chunks : List (Chunk K V P)}
    (hprepared : Prepared pad Proves parseValidatorSet chunks base a) :
    ∃ last, Returns (calculateAll pad parseValidatorSet chunks base)
        ((chunks.flatMap toKeep).map (fun txn => txn.2.writeSet.updates),
          a.checkpointHashes mapHash (chunks.flatMap toKeep), last) ∧
      last.Realises pad.sizes Represents (a.run (chunks.flatMap toKeep)) := by
  induction chunks generalizing base a with
  | nil => exact ⟨base, returns_pure.mpr rfl, hbase⟩
  | cons chunk rest ih =>
    obtain ⟨hcache, hepoch, hrest⟩ := hprepared
    obtain ⟨result, hcalculate, hupdates, hhashes, hresult⟩ :=
      calculate_spec hpad hbase hcache hepoch
    obtain ⟨last, hcalculateAll, hlast⟩ := ih hresult (hrest result hcalculate)
    refine ⟨last, returns_bind.mpr ⟨result, hcalculate, returns_bind.mpr ⟨_, hcalculateAll,
      returns_pure.mpr ?_⟩⟩, ?_⟩
    · rw [hupdates, hhashes, List.flatMap_cons, List.map_append, Progress.checkpointHashes_append]
    · rw [List.flatMap_cons, Progress.run_append]
      exact hlast

end Chunks
end Chunk

section Independence
variable {pad : Scratchpad R K V P H ε} {Represents : R → (K → Option V) → Prop}
  {Proves : P → R → K → Prop} {mapHash : (K → Option V) → H}
  {parseValidatorSet : List (K × V) → Option E} {base : StateDelta (SparseMerkleTree R) K V}
  {a : Progress K V}

/-- The result does not depend on how the transactions are cut into chunks, and the write sets
after an earlier checkpoint lead to the same state. The checkpoint is one of a history in which the
base state is reached. -/
theorem state_independent_of_chunks (hpad : pad.Sound Represents Proves mapHash)
    (hbase : base.Realises pad.sizes Represents a) {chunks : List (Chunk K V P)}
    {whole : Chunk K V P} (hwhole : whole.toKeep = chunks.flatMap Chunk.toKeep)
    (hchunks : Chunk.Prepared pad Proves parseValidatorSet chunks base a)
    (honce : Chunk.Prepared pad Proves parseValidatorSet [whole] base a) :
    ∃ updatesVec hashes last result,
      Returns (Chunk.calculateAll pad parseValidatorSet chunks base) (updatesVec, hashes, last) ∧
      Returns (whole.calculate pad parseValidatorSet base) result ∧
      updatesVec = result.stateUpdatesVec ∧ hashes = result.stateCheckpointHashes ∧
      last.Same pad result.resultState ∧
      last.current.IsTree pad.sizes Represents (a.run whole.toKeep).current ∧
      result.resultState.current.IsTree pad.sizes Represents (a.run whole.toKeep).current ∧
      ∀ (origin : Progress K V) (before done after : List (KeptTransaction K V)),
        origin.run before = a → before ++ whole.toKeep = done ++ after →
        (origin.run done).AtCheckpoint →
        ∀ (tree : SparseMerkleTree R) (cache : StateCache K V P),
          tree.IsTree pad.sizes Represents (origin.run done).current →
          cache.Covers Proves
            (StateDelta.newAtCheckpoint tree (versionBefore (origin.run done).count))
            (origin.run done).current
            (fun k => ∃ txn ∈ after, k ∈ txn.2.writeSet.ops.map Prod.fst) →
          ∃ updates delta, Returns ((InMemoryStateCalculator.new
              (StateDelta.newAtCheckpoint tree (versionBefore (origin.run done).count))
              cache).calculateForWriteSetsAfterSnapshot pad (lastCheckpointIndex after)
                (after.map fun txn => txn.2.writeSet)) (updates, delta) ∧
            delta.Same pad result.resultState := by
  obtain ⟨last, hall, hlast⟩ := Chunk.calculateAll_spec hpad hbase hchunks
  obtain ⟨result, hresult, hupdates, hhashes, hstate⟩ :=
    Chunk.calculate_spec hpad hbase honce.1 honce.2.1
  rw [← hwhole] at hall hlast
  refine ⟨_, _, last, result, hall, hresult, hupdates.symm, hhashes.symm, hlast.same hpad hstate,
    hlast.current, hstate.current, ?_⟩
  intro origin before done after hbefore hsplit hcheckpoint tree cache htree hcache
  have htouched : ∀ writeSet ∈ after.map (fun txn => txn.2.writeSet),
      ∀ k ∈ writeSet.ops.map Prod.fst, ∃ txn ∈ after, k ∈ txn.2.writeSet.ops.map Prod.fst := by
    intro writeSet hwriteSet k hk
    obtain ⟨txn, htxn, rfl⟩ := List.mem_map.mp hwriteSet
    exact ⟨txn, htxn, hk⟩
  have hindex : ∀ index, lastCheckpointIndex after = some index →
      index < (after.map fun txn => txn.2.writeSet).length := by
    intro index hlastIndex
    rw [List.length_map]
    exact Progress.lastCheckpointIndex_lt hlastIndex
  obtain ⟨updates, delta, hreplay, hdelta⟩ := calculateForWriteSets_spec hpad
    (newAtCheckpoint_realises htree hcheckpoint) hcache htouched hindex
  have hrun : (origin.run done).run after = a.run whole.toKeep := by
    rw [← Progress.run_append, ← hsplit, Progress.run_append, hbefore]
  rw [← Progress.run_eq_replay, hrun] at hdelta
  exact ⟨updates, delta, hreplay, hdelta.same hpad hstate⟩

end Independence

/-- Trees that are maps. -/
def mapPad : Scratchpad (Bool → Option ℕ) Bool ℕ Unit (Bool → Option ℕ) Empty where
  hash := id
  update m updates _ := pure (overlay updates m)
  sizes := ⟨fun _ => 1, id⟩

def writeTrue : KeptTransaction Bool ℕ :=
  (.userTransaction, ⟨⟨[(true, .creation 3)], by decide⟩, false⟩)

def checkpointTransaction : KeptTransaction Bool ℕ :=
  (.stateCheckpoint, ⟨⟨[], by decide⟩, false⟩)

def modifyTrue : KeptTransaction Bool ℕ :=
  (.userTransaction, ⟨⟨[(true, .modification 5)], by decide⟩, false⟩)

def writeChunk : Chunk Bool ℕ Unit := ⟨[writeTrue], false, [(true, none)], ()⟩

def checkpointChunk : Chunk Bool ℕ Unit :=
  ⟨[checkpointTransaction, modifyTrue], false, [(true, some 3)], ()⟩

def bothChunk : Chunk Bool ℕ Unit :=
  ⟨[writeTrue, checkpointTransaction, modifyTrue], false, [(true, none)], ()⟩

def emptyDelta : StateDelta (SparseMerkleTree (Bool → Option ℕ)) Bool ℕ :=
  .newAtCheckpoint ⟨fun _ => none, .tracked 0 0⟩ none

def emptyProgress : Progress Bool ℕ := ⟨fun _ => none, 0, fun _ => none, 0⟩

theorem mapPad_sound : mapPad.Sound (fun r m => r = m) (fun _ _ _ => True) id :=
  ⟨fun h => h, fun h _ _ => ⟨_, returns_pure.mpr rfl, h ▸ rfl, fun _ _ => trivial⟩⟩

theorem emptyDelta_realises :
    emptyDelta.Realises mapPad.sizes (fun r m => r = m) emptyProgress := by
  have hzero : (StateStorageUsage.tracked 0 0).Tallies mapPad.sizes fun _ => none :=
    ⟨[], List.nodup_nil, fun _ => rfl, rfl⟩
  exact ⟨⟨rfl, hzero⟩, rfl, ⟨rfl, hzero⟩, rfl, fun _ => rfl, Nat.le_refl _⟩

def noValidators (_ : List (Bool × ℕ)) : Option Unit := none

/-- The state at the checkpoint, as it is after a restart. -/
def restartDelta : StateDelta (SparseMerkleTree (Bool → Option ℕ)) Bool ℕ :=
  .newAtCheckpoint ⟨fun k => if k then some 3 else none, .tracked 1 4⟩ (some 1)

theorem state_independent_of_chunks_two :
    ∃ updatesVec hashes last result updates delta,
      Returns (Chunk.calculateAll mapPad noValidators [writeChunk, checkpointChunk] emptyDelta)
        (updatesVec, hashes, last) ∧
      Returns (bothChunk.calculate mapPad noValidators emptyDelta) result ∧
      updatesVec = result.stateUpdatesVec ∧ hashes = result.stateCheckpointHashes ∧
      last.Same mapPad result.resultState ∧
      Returns ((InMemoryStateCalculator.new restartDelta
        checkpointChunk.cache).calculateForWriteSetsAfterSnapshot mapPad none
          [modifyTrue.2.writeSet]) (updates, delta) ∧
      delta.Same mapPad result.resultState := by
  have hboth : ∀ k, bothChunk.touched k → get k bothChunk.cache.stateCache = some none := by
    unfold Chunk.touched
    decide
  have hwrite : ∀ k, writeChunk.touched k → get k writeChunk.cache.stateCache = some none := by
    unfold Chunk.touched
    decide
  have hcheckpoint : ∀ k, checkpointChunk.touched k → get k checkpointChunk.cache.stateCache =
      some ((emptyProgress.run writeChunk.toKeep).current k) := by
    unfold Chunk.touched
    decide
  have honce : Chunk.Prepared mapPad (fun _ _ _ => True) noValidators [bothChunk] emptyDelta
      emptyProgress := ⟨⟨hboth, fun _ _ => trivial⟩, fun h => (by cases h), fun _ _ => trivial⟩
  have hchunks : Chunk.Prepared mapPad (fun _ _ _ => True) noValidators
      [writeChunk, checkpointChunk] emptyDelta emptyProgress :=
    ⟨⟨hwrite, fun _ _ => trivial⟩, fun h => (by cases h), fun _ _ =>
      ⟨⟨hcheckpoint, fun _ _ => trivial⟩, fun h => (by cases h), fun _ _ => trivial⟩⟩
  have htree : restartDelta.current.IsTree mapPad.sizes (fun r m => r = m)
      (emptyProgress.run [writeTrue, checkpointTransaction]).current :=
    ⟨funext (by decide), [(true, 3)], by decide, by decide, rfl⟩
  have hcovers : ∀ k, (∃ txn ∈ [modifyTrue], k ∈ txn.2.writeSet.ops.map Prod.fst) →
      get k checkpointChunk.cache.stateCache =
        some ((emptyProgress.run [writeTrue, checkpointTransaction]).current k) := by decide
  obtain ⟨updatesVec, hashes, last, result, hall, hresult, hupdates, hhashes, hsame, -, -,
    hafter⟩ := state_independent_of_chunks mapPad_sound emptyDelta_realises rfl hchunks honce
  obtain ⟨updates, delta, hreplay, hsame'⟩ := hafter emptyProgress []
    [writeTrue, checkpointTransaction] [modifyTrue] rfl rfl ⟨rfl, fun _ => rfl⟩ _
    checkpointChunk.cache htree ⟨hcovers, fun _ _ => trivial⟩
  exact ⟨updatesVec, hashes, last, result, updates, delta, hall, hresult, hupdates, hhashes,
    hsame, hreplay, hsame'⟩

end Anthemius.StateStore

import Anthemius.StateCalculators

/-!
# What the state calculator computes

The progress of a state is the map at the last checkpoint, the updates since then and two numbers
of transactions. It does not know how transactions were cut into chunks. The calculator carries a
progress in its trees, its two layers of updates, its usage and its cache.
-/
namespace Anthemius.StateStore

open EntryMaps Outcomes

variable {R K V P H ε : Type} [DecidableEq K]

structure Progress (K V : Type) where
  checkpoint : K → Option V
  checkpointCount : ℕ
  since : K → Option (Option V)
  count : ℕ

namespace Progress

def current (a : Progress K V) (k : K) : Option V := (a.since k).getD (a.checkpoint k)

def add (a : Progress K V) (updates : List (K × Option V)) : Progress K V where
  checkpoint := a.checkpoint
  checkpointCount := a.checkpointCount
  since k := (get k updates).or (a.since k)
  count := a.count + 1

/-- The last checkpoint is here. -/
def mark (a : Progress K V) : Progress K V where
  checkpoint := a.current
  checkpointCount := a.count
  since _ := none
  count := a.count

def transaction (a : Progress K V) (txn : KeptTransaction K V) : Progress K V :=
  if endsCheckpoint txn.1 txn.2 then (a.add txn.2.writeSet.updates).mark
  else a.add txn.2.writeSet.updates

def run (a : Progress K V) (txns : List (KeptTransaction K V)) : Progress K V :=
  txns.foldl transaction a

def addAll (a : Progress K V) (writeSets : List (WriteSet K V)) : Progress K V :=
  writeSets.foldl (fun a writeSet => a.add writeSet.updates) a

variable {a : Progress K V}

theorem current_add {updates : List (K × Option V)} :
    (a.add updates).current = overlay updates a.current := by
  funext k
  change ((get k updates).or (a.since k)).getD (a.checkpoint k) = (get k updates).getD (a.current k)
  cases get k updates <;> rfl

omit [DecidableEq K] in
@[simp] theorem current_mark : a.mark.current = a.current := rfl

theorem count_transaction (txn : KeptTransaction K V) :
    (a.transaction txn).count = a.count + 1 := by
  unfold transaction
  split <;> rfl

theorem count_run (txns : List (KeptTransaction K V)) :
    (a.run txns).count = a.count + txns.length := by
  induction txns generalizing a with
  | nil => rfl
  | cons txn txns ih =>
    change ((a.transaction txn).run txns).count = _
    rw [ih, count_transaction, List.length_cons]
    omega

/-- The hash after each transaction that makes a checkpoint. -/
def checkpointHashes (mapHash : (K → Option V) → H) (a : Progress K V) :
    List (KeptTransaction K V) → List (Option H)
  | [] => []
  | txn :: rest =>
    (if endsCheckpoint txn.1 txn.2 then some (mapHash (a.transaction txn).current) else none) ::
      (a.transaction txn).checkpointHashes mapHash rest

end Progress

/-- A tree represents a map, and its hash is that of the map. The updater sets the values of
distinct keys that the proofs cover, and the proofs cover the same keys of the new tree. -/
structure Scratchpad.Sound (pad : Scratchpad R K V P H ε) (Represents : R → (K → Option V) → Prop)
    (Proves : P → R → K → Prop) (mapHash : (K → Option V) → H) : Prop where
  hash_eq : ∀ {r m}, Represents r m → pad.hash r = mapHash m
  update : ∀ {r m updates p}, Represents r m → Distinct updates →
    (∀ k ∈ updates.map Prod.fst, Proves p r k) →
    ∃ r', Returns (pad.update r updates p) r' ∧ Represents r' (overlay updates m) ∧
      ∀ k, Proves p r k → Proves p r' k

section Trees
variable {pad : Scratchpad R K V P H ε} {Represents : R → (K → Option V) → Prop}
  {Proves : P → R → K → Prop} {mapHash : (K → Option V) → H}

/-- The tree represents the map and has its usage. -/
structure SparseMerkleTree.IsTree (sizes : Sizes K V) (Represents : R → (K → Option V) → Prop)
    (tree : SparseMerkleTree R) (m : K → Option V) : Prop where
  represents : Represents tree.root m
  usage : tree.usage.Tallies sizes m

theorem SparseMerkleTree.IsTree.batchUpdate (hpad : pad.Sound Represents Proves mapHash)
    {tree : SparseMerkleTree R} {m : K → Option V} (h : tree.IsTree pad.sizes Represents m)
    {updates : List (K × Option V)} (hdistinct : Distinct updates) {usage : StateStorageUsage}
    (husage : usage.Tallies pad.sizes (overlay updates m)) {p : P}
    (hproofs : ∀ k ∈ updates.map Prod.fst, Proves p tree.root k) :
    ∃ tree', Returns (tree.batchUpdate pad updates usage p) tree' ∧
      tree'.IsTree pad.sizes Represents (overlay updates m) ∧
      ∀ k, Proves p tree.root k → Proves p tree'.root k := by
  unfold SparseMerkleTree.batchUpdate
  cases updates with
  | nil =>
    have hsame : tree.usage = usage := h.usage.unique husage
    exact ⟨tree, returns_bind.mpr ⟨(), returns_assert.mpr hsame, returns_pure.mpr rfl⟩, h,
      fun _ hk => hk⟩
  | cons update rest =>
    obtain ⟨root, hupdate, hroot, hkept⟩ := hpad.update h.represents hdistinct hproofs
    exact ⟨⟨root, usage⟩, returns_bind.mpr ⟨root, returns_mapError.mpr hupdate,
      returns_pure.mpr rfl⟩, ⟨hroot, husage⟩, hkept⟩

end Trees

omit [DecidableEq K] in
theorem WriteSet.distinct_updates (writeSet : WriteSet K V) : Distinct writeSet.updates := by
  have hkeys : writeSet.updates.map Prod.fst = writeSet.ops.map Prod.fst := by
    rw [WriteSet.updates, List.map_map]
    rfl
  rw [Distinct, hkeys]
  exact writeSet.distinct

theorem processWriteOps_spec (ε : Type) {sizes : Sizes K V} (transaction : Option TransactionKind)
    {ops : List (K × WriteOp V)} {cache : List (K × Option V)} {usage : StateStorageUsage}
    {m : K → Option V} {touched : K → Prop} (husage : usage.Tallies sizes m)
    (hcached : ∀ k, touched k → get k cache = some (m k))
    (htouched : ∀ k ∈ ops.map Prod.fst, touched k) :
    ∃ usage', Returns (processWriteOps sizes transaction ops cache usage :
        Outcome (CalculatorError ε) _)
        (extend cache (ops.map fun op => (op.1, op.2.value)), usage') ∧
      usage'.Tallies sizes (applyAll (ops.map fun op => (op.1, op.2.value)) m) ∧
      ∀ k, touched k → get k (extend cache (ops.map fun op => (op.1, op.2.value))) =
        some (applyAll (ops.map fun op => (op.1, op.2.value)) m k) := by
  induction ops generalizing cache usage m with
  | nil => exact ⟨usage, returns_pure.mpr rfl, husage, hcached⟩
  | cons op rest ih =>
    obtain ⟨key, op⟩ := op
    rw [List.map_cons, List.forall_mem_cons] at htouched
    obtain ⟨usage₁, hreplace, husage₁⟩ := husage.replace key op.value
    have hop : Returns (processStateKeyWriteOp sizes transaction cache usage key op :
        Outcome (CalculatorError ε) _) (set key op.value cache, usage₁) := by
      unfold processStateKeyWriteOp
      rw [hcached key htouched.1]
      exact returns_bind.mpr ⟨usage₁, hreplace, returns_pure.mpr rfl⟩
    have hcached₁ : ∀ k, touched k →
        get k (set key op.value cache) = some (Function.update m key op.value k) := by
      intro k hk
      by_cases heq : k = key
      · rw [heq, get_set_self, Function.update_self]
      · rw [get_set_of_ne heq, Function.update_of_ne heq, hcached k hk]
    obtain ⟨usage', hrest, husage', hcached'⟩ := ih husage₁ hcached₁ htouched.2
    exact ⟨usage', returns_bind.mpr ⟨_, hop, hrest⟩, husage', hcached'⟩

/-! ## The calculator -/

namespace InMemoryStateCalculator

/-- The calculator carries the progress. The cache and the proofs cover the touched keys. -/
structure Tracks (sizes : Sizes K V) (Represents : R → (K → Option V) → Prop)
    (Proves : P → R → K → Prop) (touched : K → Prop) (c : InMemoryStateCalculator R K V P)
    (a : Progress K V) : Prop where
  checkpoint : c.checkpoint.IsTree sizes Represents a.checkpoint
  checkpointVersion : c.checkpointVersion = versionBefore a.checkpointCount
  latest : ∃ m, c.latest.IsTree sizes Represents m ∧ overlay c.updatesAfterLatest m = a.current
  distinct : Distinct c.updatesAfterLatest
  since : ∀ k, (get k c.updatesAfterLatest).or (get k c.updatesBetweenCheckpointAndLatest) =
    a.since k
  usage : c.usage.Tallies sizes a.current
  next : c.nextVersion = a.count
  le : a.checkpointCount ≤ a.count
  cached : ∀ k, touched k → get k c.stateCache = some (a.current k)
  written : ∀ k, get k c.updatesAfterLatest ≠ none → touched k
  proofs : ∀ k, touched k → Proves c.proofReader c.latest.root k

section Steps
variable {pad : Scratchpad R K V P H ε} {Represents : R → (K → Option V) → Prop}
  {Proves : P → R → K → Prop} {mapHash : (K → Option V) → H} {touched : K → Prop}
  {c : InMemoryStateCalculator R K V P} {a : Progress K V}

theorem Tracks.processWriteSet (h : c.Tracks pad.sizes Represents Proves touched a)
    (transaction : Option TransactionKind) {writeSet : WriteSet K V}
    (htouched : ∀ k ∈ writeSet.ops.map Prod.fst, touched k) :
    ∃ c', Returns (c.processWriteSet pad transaction writeSet) c' ∧
      c'.Tracks pad.sizes Represents Proves touched (a.add writeSet.updates) ∧
      c'.stateCache = extend c.stateCache writeSet.updates := by
  obtain ⟨usage, hops, husage, hcached⟩ :=
    processWriteOps_spec ε transaction h.usage h.cached htouched
  have hdistinct := writeSet.distinct_updates
  have hcurrent : (a.add writeSet.updates).current = applyAll writeSet.updates a.current := by
    rw [Progress.current_add, hdistinct.applyAll_eq]
  obtain ⟨m, hlatest, hm⟩ := h.latest
  refine ⟨_, returns_bind.mpr ⟨_, hops, returns_pure.mpr rfl⟩, ?_, rfl⟩
  exact {
    checkpoint := h.checkpoint
    checkpointVersion := h.checkpointVersion
    latest := ⟨m, hlatest, by rw [overlay_extend, hm, hcurrent]⟩
    distinct := h.distinct.extend
    since := fun k => by
      dsimp only
      rw [hdistinct.get_extend, Option.or_assoc, h.since]
      rfl
    usage := hcurrent ▸ husage
    next := congrArg (· + 1) h.next
    le := h.le.trans (Nat.le_succ _)
    cached := fun k hk => hcurrent ▸ hcached k hk
    written := fun k hk => by
      dsimp only at hk
      rw [hdistinct.get_extend] at hk
      rcases hget : get k writeSet.updates with _ | value
      · rw [hget] at hk
        exact h.written k hk
      · have hmem := List.mem_map_of_mem (f := Prod.fst) (mem_of_get hget)
        rw [WriteSet.updates, List.map_map] at hmem
        exact htouched k hmem
    proofs := h.proofs }

theorem Tracks.batchUpdate (hpad : pad.Sound Represents Proves mapHash)
    (h : c.Tracks pad.sizes Represents Proves touched a) :
    ∃ tree, Returns (c.latest.batchUpdate pad c.updatesAfterLatest c.usage c.proofReader) tree ∧
      tree.IsTree pad.sizes Represents a.current ∧
      ∀ k, touched k → Proves c.proofReader tree.root k := by
  obtain ⟨m, hlatest, hm⟩ := h.latest
  obtain ⟨tree, htree, hrepresents, hkept⟩ := hlatest.batchUpdate hpad h.distinct
    (hm.symm ▸ h.usage) fun k hk => h.proofs k (h.written k fun hnone => get_eq_none.mp hnone hk)
  exact ⟨tree, htree, hm ▸ hrepresents, fun k hk => hkept k (h.proofs k hk)⟩

theorem Tracks.makeCheckpoint (hpad : pad.Sound Represents Proves mapHash)
    (h : c.Tracks pad.sizes Represents Proves touched a) :
    ∃ c', Returns (c.makeCheckpoint pad) (c', mapHash a.current) ∧
      c'.Tracks pad.sizes Represents Proves touched a.mark ∧ c'.stateCache = c.stateCache := by
  obtain ⟨tree, hupdate, htree, hproofs⟩ := h.batchUpdate hpad
  have hhash : tree.rootHash pad = mapHash a.current := hpad.hash_eq htree.represents
  refine ⟨_, returns_bind.mpr ⟨tree, hupdate, returns_pure.mpr (Prod.ext rfl hhash)⟩, ?_, rfl⟩
  exact {
    checkpoint := htree
    checkpointVersion := congrArg versionBefore h.next
    latest := ⟨a.current, htree, rfl⟩
    distinct := List.nodup_nil
    since := fun _ => rfl
    usage := h.usage
    next := h.next
    le := Nat.le_refl _
    cached := h.cached
    written := fun k hk => absurd rfl hk
    proofs := hproofs }

theorem Tracks.addTransaction (hpad : pad.Sound Represents Proves mapHash)
    (h : c.Tracks pad.sizes Represents Proves touched a)
    {txn : KeptTransaction K V}
    (htouched : ∀ k ∈ txn.2.writeSet.ops.map Prod.fst, touched k) :
    ∃ c', Returns (c.addTransaction pad txn.1 txn.2) (c', txn.2.writeSet.updates,
        if endsCheckpoint txn.1 txn.2 then some (mapHash (a.transaction txn).current) else none) ∧
      c'.Tracks pad.sizes Represents Proves touched (a.transaction txn) ∧
      c'.stateCache = extend c.stateCache txn.2.writeSet.updates := by
  obtain ⟨c₁, hwrites, hc₁, hcache₁⟩ := h.processWriteSet (some txn.1) htouched
  unfold InMemoryStateCalculator.addTransaction Progress.transaction
  by_cases hends : endsCheckpoint txn.1 txn.2
  · obtain ⟨c₂, hcheckpoint, hc₂, hcache₂⟩ := hc₁.makeCheckpoint hpad
    refine ⟨c₂, returns_bind.mpr ⟨c₁, hwrites, ?_⟩, ?_, hcache₂.trans hcache₁⟩
    · rw [if_pos hends, if_pos hends, if_pos hends]
      exact returns_bind.mpr ⟨_, hcheckpoint, returns_pure.mpr rfl⟩
    · rw [if_pos hends]
      exact hc₂
  · refine ⟨c₁, returns_bind.mpr ⟨c₁, hwrites, ?_⟩, ?_, hcache₁⟩
    · rw [if_neg hends, if_neg hends]
      exact returns_pure.mpr rfl
    · rw [if_neg hends]
      exact hc₁

theorem Tracks.addTransactions (hpad : pad.Sound Represents Proves mapHash)
    (h : c.Tracks pad.sizes Represents Proves touched a)
    (txns : List (KeptTransaction K V))
    (htouched : ∀ txn ∈ txns, ∀ k ∈ txn.2.writeSet.ops.map Prod.fst, touched k) :
    ∃ c', Returns (InMemoryStateCalculator.addTransactions pad txns c)
        (c', txns.map fun txn => txn.2.writeSet.updates, a.checkpointHashes mapHash txns) ∧
      c'.Tracks pad.sizes Represents Proves touched (a.run txns) ∧
      c'.stateCache = extend c.stateCache (txns.flatMap fun txn => txn.2.writeSet.updates) := by
  induction txns generalizing c a with
  | nil => exact ⟨c, returns_pure.mpr rfl, h, rfl⟩
  | cons txn rest ih =>
    rw [List.forall_mem_cons] at htouched
    obtain ⟨c₁, hadd, hc₁, hcache₁⟩ := h.addTransaction hpad htouched.1
    obtain ⟨c₂, hrest, hc₂, hcache₂⟩ := ih hc₁ htouched.2
    refine ⟨c₂, returns_bind.mpr ⟨_, hadd, returns_bind.mpr ⟨_, hrest, returns_pure.mpr rfl⟩⟩,
      hc₂, ?_⟩
    rw [hcache₂, hcache₁, List.flatMap_cons, extend_append]

theorem Tracks.addWriteSets (h : c.Tracks pad.sizes Represents Proves touched a)
    (writeSets : List (WriteSet K V))
    (htouched : ∀ writeSet ∈ writeSets, ∀ k ∈ writeSet.ops.map Prod.fst, touched k) :
    ∃ c', Returns (InMemoryStateCalculator.addWriteSets pad writeSets c) c' ∧
      c'.Tracks pad.sizes Represents Proves touched (a.addAll writeSets) := by
  induction writeSets generalizing c a with
  | nil => exact ⟨c, returns_pure.mpr rfl, h⟩
  | cons writeSet rest ih =>
    rw [List.forall_mem_cons] at htouched
    obtain ⟨c₁, hadd, hc₁, -⟩ := h.processWriteSet none htouched.1
    obtain ⟨c₂, hrest, hc₂⟩ := ih hc₁ htouched.2
    exact ⟨c₂, returns_bind.mpr ⟨c₁, hadd, hrest⟩, hc₂⟩

end Steps
end InMemoryStateCalculator

end Anthemius.StateStore

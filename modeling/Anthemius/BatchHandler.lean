import Anthemius.FillerPathCosts

/-!
# The batch handler

A block is filled from a list of batches, one after the other. A batch of which nearly
everything was skipped is marked and passed over in later calls, with its senders blocked; what
a batch does not give to the block stays in it. `none` is a panic: an index out of range, or
checked arithmetic that fails.
-/
namespace Anthemius
open CheckedLoops LittleEndianBytes

/-- The arguments of a call other than the batches and their marks. -/
structure Setting where
  cores : ℕ
  maxGas : ℕ
  goodBlock : Bool
  prod : Bool

/-- The variables of the loop in `get_transaction_register`. -/
structure BatchHandler (T : Type) where
  txns : List (List (Candidate T))
  fullBlockSkip : List Bool
  filler : DependencyFiller T
  lastTouched : LastTouched
  skippedUsers : Finset Bytes
  index : ℕ
  prevFillerState : ℕ
  relaxed : ℕ
  isFirst : Bool
  firstIterTx : ℕ

namespace BatchHandler
variable {T : Type}

def batches : ℕ := 5

def goalQty : ℕ := 10000

def start (txns : List (List (Candidate T))) (fullBlockSkip : List Bool)
    (filler : DependencyFiller T) : BatchHandler T :=
  ⟨txns, fullBlockSkip, filler, fun _ => none, ∅, 0, 0, 0, true, 0⟩

/-- The counter has 16 bits. -/
def addFirstIterTx (s : BatchHandler T) (n : ℕ) : Option (BatchHandler T) :=
  if s.firstIterTx + n < 2 ^ 16 then some { s with firstIterTx := s.firstIterTx + n } else none

/-- A marked batch is passed over. -/
def skipBatch (numBlocks : ℕ) (s : BatchHandler T) (vecAtIndex : List (Candidate T)) :
    Option (Flow (BatchHandler T)) :=
  let startlen := vecAtIndex.length % 2 ^ 16
  if startlen > 10000 then none
  else
    let s : BatchHandler T := { s with
      skippedUsers := s.skippedUsers ∪ (vecAtIndex.map Candidate.sender).toFinset
      index := s.index + 1 }
    (s.addFirstIterTx (10000 - startlen)).map fun s =>
      if s.index + 1 ≥ numBlocks then .done s else .next s

def passEmpty (numBlocks : ℕ) (s : BatchHandler T) : Option (Flow (BatchHandler T)) :=
  (s.addFirstIterTx 10000).map fun s =>
    if s.prevFillerState ≥ 9990 ∨ s.index + 1 ≥ numBlocks then .done s
    else .next { s with index := s.index + 1 }

/-- The gas per core is raised when a batch gave much less than its share. -/
def relax (c : Setting) (minModifier startlen dif : ℕ) (filler : DependencyFiller T)
    (relaxed : ℕ) : Option (DependencyFiller T × ℕ) :=
  if minModifier = 0 then none
  else
    let perBatchTarget := startlen / minModifier
    if dif > 0 ∧ dif * 2 < perBatchTarget then
      let gas := c.maxGas / c.cores * min (perBatchTarget / (dif * 2)) 100
      if gas < 2 ^ 64 then (filler.setGasPerCore gas).map (·, relaxed + 1) else none
    else some (filler, relaxed)

/-- An empty vector of marks takes none. -/
def markBatch (fullBlockSkip : List Bool) (index : ℕ) (skippedLast : Bool) : Option (List Bool) :=
  if skippedLast && !fullBlockSkip.isEmpty then
    if index < fullBlockSkip.length then some (fullBlockSkip.set index true) else none
  else some fullBlockSkip

/-- Only the first batches count. -/
def countResult (s : BatchHandler T) (resultLen : ℕ) : Option (BatchHandler T) :=
  if s.index ≤ batches - 1 then
    if resultLen > 10000 then none else s.addFirstIterTx (10000 - resultLen)
  else some s

def addBatch (c : Setting) (numBlocks minModifier : ℕ) (s : BatchHandler T)
    (vecAtIndex : List (Candidate T)) : Option (Flow (BatchHandler T)) := do
  let startlen := vecAtIndex.length
  let (fill, skippedLast) ← s.filler.addAll vecAtIndex s.lastTouched s.skippedUsers c.goodBlock
  let fullBlockSkip ← markBatch s.fullBlockSkip s.index skippedLast
  let resultLen := fill.returnVec.length
  let len := fill.filler.block.length
  let dif := len - s.prevFillerState
  let (filler, relaxed) ← relax c minModifier startlen dif fill.filler s.relaxed
  let s' : BatchHandler T := { s with
    txns := s.txns.set s.index fill.returnVec
    fullBlockSkip := fullBlockSkip
    filler := filler
    lastTouched := fill.lastTouched
    skippedUsers := fill.skippedUsers
    prevFillerState := len
    relaxed := relaxed
    isFirst := false }
  let s' ← s'.countResult resultLen
  if c.prod = false ∨ len ≥ 9990 ∨ s.index + 1 ≥ numBlocks ∨ startlen = 10000 ∧ dif = 0 ∨
      relaxed > 2 ∧ dif ≤ 1 then
    some (.done s')
  else some (.next { s' with index := s'.index + 1 })

/-- The mark of the batch at the index is set and looked at. -/
def Skips (s : BatchHandler T) : Prop := s.isFirst = false ∧ s.fullBlockSkip[s.index]? = some true

/-- No mark is looked at before the first batch that is not empty. -/
def mark (s : BatchHandler T) : Option Bool :=
  if s.isFirst then some false else s.fullBlockSkip[s.index]?

/-- One round of the loop. -/
def visit (c : Setting) (numBlocks minModifier : ℕ) (s : BatchHandler T) :
    Option (Flow (BatchHandler T)) := do
  let vecAtIndex ← s.txns[s.index]?
  let skip ← s.mark
  if skip then s.skipBatch numBlocks vecAtIndex
  else if vecAtIndex.length = 0 then s.passEmpty numBlocks
  else s.addBatch c numBlocks minModifier vecAtIndex

def round (c : Setting) (numBlocks : ℕ) : BatchHandler T → Option (Flow (BatchHandler T)) :=
  visit c numBlocks (min numBlocks c.cores)

/-- The final values of the variables; the register is read off the filler. -/
def getTransactionRegister (c : Setting) (txns : List (List (Candidate T)))
    (fullBlockSkip : List Bool) : Option (BatchHandler T) :=
  if c.cores = 0 then none
  else
    (DependencyFiller.new (c.maxGas / c.cores) goalQty (c.cores % 2 ^ 32)).bind fun filler =>
      loop (round c txns.length) (txns.length + 1) (start txns fullBlockSkip filler)

/-- The register that is made from the filler after the loop. -/
def Registers (s : BatchHandler T) (r : TransactionRegister (SignedTransaction T)) : Prop :=
  r.txns = s.filler.block ∧ r.gasEstimates = s.filler.estimatedGas ∧
    s.filler.GetDependencyGraph r.dependencyGraph

/-! ## The outcomes of one round -/

variable {c : Setting} {numBlocks minModifier : ℕ} {s s' : BatchHandler T}
  {flow : Flow (BatchHandler T)}

/-- What a round does to the batches, the filler, its map and the blocked senders. -/
inductive Visit (goodBlock : Bool) (s s' : BatchHandler T) : Prop
  | skip (vec : List (Candidate T)) (hvec : s.txns[s.index]? = some vec) (hskip : s.Skips)
      (htxns : s'.txns = s.txns) (hfiller : s'.filler = s.filler)
      (hmap : s'.lastTouched = s.lastTouched)
      (husers : s'.skippedUsers = s.skippedUsers ∪ (vec.map Candidate.sender).toFinset)
  | empty (hvec : s.txns[s.index]? = some []) (htxns : s'.txns = s.txns)
      (hfiller : s'.filler = s.filler) (hmap : s'.lastTouched = s.lastTouched)
      (husers : s'.skippedUsers = s.skippedUsers)
  | add (vec : List (Candidate T)) (fill : Fill T) (flag : Bool)
      (hvec : s.txns[s.index]? = some vec)
      (hadd : s.filler.addAll vec s.lastTouched s.skippedUsers goodBlock = some (fill, flag))
      (htxns : s'.txns = s.txns.set s.index fill.returnVec) (gas : ℕ)
      (hfiller : s'.filler = { fill.filler with gasPerCore := gas })
      (hmap : s'.lastTouched = fill.lastTouched) (husers : s'.skippedUsers = fill.skippedUsers)

/-- Where a round leaves the index. -/
def Moves (numBlocks : ℕ) (s : BatchHandler T) : Flow (BatchHandler T) → Prop
  | .next s' => s'.index = s.index + 1 ∧ s'.index < numBlocks
  | .done s' => s'.index ≤ s.index + 1

theorem addFirstIterTx_eq_some {n : ℕ} (h : s.addFirstIterTx n = some s') :
    s' = { s with firstIterTx := s.firstIterTx + n } := by
  unfold addFirstIterTx at h
  split at h
  · exact (Option.some.inj h).symm
  · cases h

theorem countResult_eq_some {n : ℕ} (h : s.countResult n = some s') :
    ∃ k, s' = { s with firstIterTx := k } := by
  unfold countResult at h
  split at h
  · split at h
    · cases h
    · exact ⟨_, addFirstIterTx_eq_some h⟩
  · cases h
    exact ⟨s.firstIterTx, rfl⟩

theorem mark_eq_true (h : s.mark = some true) : s.Skips := by
  unfold mark at h
  split at h
  · cases h
  · exact ⟨by simpa using ‹¬ s.isFirst = true›, h⟩

theorem skipBatch_eq_some {vec : List (Candidate T)} (hvec : s.txns[s.index]? = some vec)
    (hskip : s.Skips) (h : s.skipBatch numBlocks vec = some flow) :
    Visit c.goodBlock s flow.state ∧ Moves numBlocks s flow := by
  simp only [skipBatch] at h
  split at h
  · cases h
  obtain ⟨t, ht, rfl⟩ := Option.map_eq_some_iff.mp h
  obtain rfl := addFirstIterTx_eq_some ht
  dsimp only
  split
  · exact ⟨.skip vec hvec hskip rfl rfl rfl rfl, le_rfl⟩
  · rename_i hlast
    exact ⟨.skip vec hvec hskip rfl rfl rfl rfl, rfl, Nat.lt_of_succ_lt (not_le.mp hlast)⟩

theorem passEmpty_eq_some (hvec : s.txns[s.index]? = some [])
    (h : s.passEmpty numBlocks = some flow) :
    Visit c.goodBlock s flow.state ∧ Moves numBlocks s flow := by
  obtain ⟨t, ht, rfl⟩ := Option.map_eq_some_iff.mp h
  obtain rfl := addFirstIterTx_eq_some ht
  dsimp only
  split
  · exact ⟨.empty hvec rfl rfl rfl rfl, Nat.le_succ _⟩
  · rename_i hlast
    exact ⟨.empty hvec rfl rfl rfl rfl, rfl, not_le.mp fun hle => hlast (.inr hle)⟩

theorem relax_eq_some {startlen dif relaxed relaxed' : ℕ} {f f' : DependencyFiller T}
    (h : relax c minModifier startlen dif f relaxed = some (f', relaxed')) :
    ∃ gas, f' = { f with gasPerCore := gas } := by
  simp only [relax] at h
  split at h
  · cases h
  split at h
  · split at h
    · obtain ⟨g, hg, hf⟩ := Option.map_eq_some_iff.mp h
      cases hf
      unfold DependencyFiller.setGasPerCore at hg
      split at hg
      · cases hg
      · cases hg
        exact ⟨_, rfl⟩
    · cases h
  · cases h
    exact ⟨f.gasPerCore, rfl⟩

theorem addBatch_eq_some {vec : List (Candidate T)} (hvec : s.txns[s.index]? = some vec)
    (h : s.addBatch c numBlocks minModifier vec = some flow) :
    Visit c.goodBlock s flow.state ∧ Moves numBlocks s flow := by
  simp only [addBatch, Option.bind_eq_bind, Option.bind_eq_some_iff, Prod.exists] at h
  obtain ⟨fill, flag, hadd, marks, -, filler, relaxed, hrelax, t, ht, h⟩ := h
  obtain ⟨gas, rfl⟩ := relax_eq_some hrelax
  obtain ⟨k, rfl⟩ := countResult_eq_some ht
  split at h
  · cases h
    exact ⟨.add vec fill flag hvec hadd rfl gas rfl rfl rfl, Nat.le_succ _⟩
  · rename_i hlast
    cases h
    exact ⟨.add vec fill flag hvec hadd rfl gas rfl rfl rfl, rfl,
      not_le.mp fun hle => hlast (.inr (.inr (.inl hle)))⟩

theorem visit_eq_some (h : s.visit c numBlocks minModifier = some flow) :
    Visit c.goodBlock s flow.state ∧ Moves numBlocks s flow := by
  simp only [visit, Option.bind_eq_bind, Option.bind_eq_some_iff] at h
  obtain ⟨vec, hvec, skip, hskip, h⟩ := h
  cases skip with
  | true =>
    exact skipBatch_eq_some hvec (mark_eq_true hskip) h
  | false =>
    simp only [Bool.false_eq_true, if_false] at h
    split at h
    · rename_i hlen
      rw [List.length_eq_zero_iff.mp hlen] at hvec
      exact passEmpty_eq_some hvec h
    · exact addBatch_eq_some hvec h

/-! ## Conservation -/

/-- Every transaction of the batches is in the block or in a batch, as often as before. -/
structure Conserves (txns : List (List (Candidate T))) (s : BatchHandler T) : Prop where
  tracks : s.filler.Tracks s.lastTouched
  length_eq : s.txns.length = txns.length
  perm : (s.filler.accepted.map Prod.fst ++ s.txns.flatten).Perm txns.flatten

theorem Conserves.start {gasPerCore cores : ℕ} {filler : DependencyFiller T}
    (hnew : DependencyFiller.new gasPerCore goalQty cores = some filler)
    (txns : List (List (Candidate T))) (fullBlockSkip : List Bool) :
    Conserves txns (start txns fullBlockSkip filler) := by
  refine ⟨.new hnew (by decide), rfl, ?_⟩
  rw [DependencyFiller.eq_of_new hnew]
  exact .refl _

theorem Visit.conserves {goodBlock : Bool} {txns : List (List (Candidate T))}
    (h : Visit goodBlock s s') (hs : Conserves txns s) : Conserves txns s' := by
  cases h with
  | skip vec _ _ htxns hfiller hmap _ =>
    exact ⟨by rw [hfiller, hmap]; exact hs.tracks, by rw [htxns]; exact hs.length_eq,
      by rw [hfiller, htxns]; exact hs.perm⟩
  | empty _ htxns hfiller hmap _ =>
    exact ⟨by rw [hfiller, hmap]; exact hs.tracks, by rw [htxns]; exact hs.length_eq,
      by rw [hfiller, htxns]; exact hs.perm⟩
  | add vec fill flag hvec hadd htxns gas hfiller hmap _ =>
    obtain ⟨new, hnew⟩ := DependencyFiller.addAll_divides hadd
    have htracks := DependencyFiller.addAll_tracks hadd hs.tracks
    refine ⟨?_, by rw [htxns, List.length_set]; exact hs.length_eq, ?_⟩
    · rw [hfiller, hmap]
      exact { htracks with }
    · have hperm := hs.perm
      rw [flatten_of_getElem? hvec] at hperm
      rw [hfiller, htxns, flatten_set (List.getElem?_eq_some_iff.mp hvec).1, hnew.accepted_eq,
        List.map_append]
      refine .trans ?_ hperm
      -- the new part of the block moves next to what the batch keeps
      simp only [List.append_assoc]
      refine .append_left _ ?_
      rw [← List.append_assoc, ← List.append_assoc, ← List.append_assoc]
      refine .append_right _ ?_
      refine (List.perm_append_comm.append_right _).trans ?_
      rw [List.append_assoc]
      exact hnew.sorts.perm.append_left _

theorem getTransactionRegister_conserves {txns : List (List (Candidate T))}
    {fullBlockSkip : List Bool} (h : getTransactionRegister c txns fullBlockSkip = some s) :
    Conserves txns s := by
  unfold getTransactionRegister at h
  split at h
  · cases h
  obtain ⟨filler, hnew, hloop⟩ := Option.bind_eq_some_iff.mp h
  refine loop_invariant (I := Conserves txns) (.start hnew txns fullBlockSkip) ?_ ?_ hloop
  · exact fun t t' ht hround => (visit_eq_some hround).1.conserves ht
  · exact fun t t' ht hround => (visit_eq_some hround).1.conserves ht

/-- Every round that goes on moves to the next batch, so the fuel is not used up. -/
theorem loop_round_fuel (c : Setting) (numBlocks : ℕ) {fuel : ℕ} (hfuel : numBlocks < fuel)
    (s : BatchHandler T) : loop (round c numBlocks) fuel s = loop (round c numBlocks)
      (numBlocks + 1) s := by
  refine loop_fuel (fun s => numBlocks - s.index) (fun t t' ht => ?_) (by omega) (by omega)
  obtain ⟨hindex, hlt⟩ := (visit_eq_some ht).2
  omega

theorem heads_index {txns : List (List (Candidate T))} {fullBlockSkip : List Bool}
    {filler : DependencyFiller T} (hne : txns ≠ [])
    (h : Heads (round c txns.length) (start txns fullBlockSkip filler) s) :
    s.index < txns.length ∧ s.txns.length = txns.length := by
  refine h.invariant (I := fun s => s.index < txns.length ∧ s.txns.length = txns.length)
    ⟨List.length_pos_of_ne_nil hne, rfl⟩ ?_
  rintro t t' ⟨-, hlen⟩ hround
  obtain ⟨hvisit, hmoves⟩ := visit_eq_some hround
  refine ⟨hmoves.2, ?_⟩
  cases hvisit with
  | skip _ _ _ htxns => exact (congrArg List.length htxns).trans hlen
  | empty _ htxns => exact (congrArg List.length htxns).trans hlen
  | add _ _ _ _ _ htxns => exact (congrArg List.length htxns).trans (List.length_set.trans hlen)

end BatchHandler

/-! ## Sequences of calls -/

/-- The batches and marks between two calls, and the blocks returned so far. -/
structure Pool (T : Type) where
  txns : List (List (Candidate T))
  fullBlockSkip : List Bool
  returned : List (SignedTransaction T)

namespace Pool
variable {T : Type}

def call (p : Pool T) (c : Setting) : Option (Pool T) :=
  (BatchHandler.getTransactionRegister c p.txns p.fullBlockSkip).map fun s =>
    ⟨s.txns, s.fullBlockSkip, p.returned ++ s.filler.block⟩

/-- A call with marks of its own. -/
def callWith (p : Pool T) (c : Setting × List Bool) : Option (Pool T) :=
  { p with fullBlockSkip := c.2 }.call c.1

/-- The transactions that are returned or still wait in a batch. -/
def all (p : Pool T) : List (SignedTransaction T) := p.returned ++ p.txns.flatten.map Candidate.tx

theorem call_perm {p q : Pool T} {c : Setting} (h : p.call c = some q) : q.all.Perm p.all := by
  obtain ⟨s, hs, rfl⟩ := Option.map_eq_some_iff.mp h
  have hkeep := BatchHandler.getTransactionRegister_conserves hs
  have hperm := hkeep.perm.map Candidate.tx
  rw [List.map_append, List.map_map] at hperm
  rw [all, all, List.append_assoc, hkeep.tracks.block_eq]
  exact hperm.append_left _

end Pool

/-- Whatever the settings and the marks of each call: the returned blocks and the batches
together keep every transaction, the parts of a register have one length, a batch is sorted
into its accepted and its returned transactions, and for a list that is not empty every round
begins at a batch of the list and the last one ends at most one past it. -/
theorem BatchHandler.loses_and_repeats_nothing {T : Type} :
    (∀ (p q : Pool T) (calls : List (Setting × List Bool)),
      calls.foldlM Pool.callWith p = some q → q.all.Perm p.all) ∧
    (∀ (c : Setting) (txns : List (List (Candidate T))) (fullBlockSkip : List Bool)
      (s : BatchHandler T), getTransactionRegister c txns fullBlockSkip = some s →
      ∀ r, s.Registers r → r.gasEstimates.length = r.txns.length ∧
        r.dependencyGraph.length = r.txns.length) ∧
    (∀ (f : DependencyFiller T) (batch : List (Candidate T)) (lastTouched : LastTouched)
      (users : Finset Bytes) (goodBlock flag : Bool) (fill : Fill T),
      f.addAll batch lastTouched users goodBlock = some (fill, flag) →
      ∃ new, fill.filler.block = f.block ++ new.map Candidate.tx ∧
        Sorts batch new fill.returnVec) ∧
    (∀ (c : Setting) (txns : List (List (Candidate T))) (fullBlockSkip : List Bool)
      (f : DependencyFiller T) (s : BatchHandler T), txns ≠ [] →
      Heads (round c txns.length) (start txns fullBlockSkip f) s →
      s.index < s.txns.length ∧
        ∀ s', round c txns.length s = some (.done s') → s'.index ≤ txns.length) := by
  refine ⟨fun p q calls h => ?_, fun c txns marks s h r hr => ?_, ?_, ?_⟩
  · exact foldlM_invariant (I := fun _ r => r.all.Perm p.all) calls (.refl _)
      (fun _ c t t' ht hcall => (Pool.call_perm hcall).trans ht) h
  · have htracks := (getTransactionRegister_conserves h).tracks
    obtain ⟨htxns, hgas, hgraph⟩ := hr
    rw [htxns, hgas, htracks.block_length, htracks.gas_length]
    exact ⟨rfl, hgraph.length_eq.trans htracks.graph_length⟩
  · intro f batch lastTouched users goodBlock flag fill h
    obtain ⟨new, hnew⟩ := DependencyFiller.addAll_divides h
    refine ⟨new.map Prod.fst, ?_, hnew.sorts⟩
    rw [hnew.block_eq, List.map_map]
    rfl
  · intro c txns marks f s hne hheads
    obtain ⟨hindex, hlen⟩ := heads_index hne hheads
    refine ⟨hlen ▸ hindex, fun s' hround => ?_⟩
    have hmoves := (visit_eq_some hround).2
    exact le_trans hmoves hindex

/-- Two batches, the second of which may be marked. -/
def twoBatches : List (List (Candidate ℕ)) :=
  [[.onBytes 1 0 [] [7] 20, .onBytes 1 1 [] [] 10], [.onBytes 2 0 [7] [] 10]]

theorem BatchHandler.keeps_twoBatches :
    ∃ q : Pool ℕ,
      [(⟨1, 2, false, true⟩, [false, false]), (⟨1, 2, true, true⟩, [false, true])].foldlM
        Pool.callWith ⟨twoBatches, [], []⟩ = some q ∧
      q.returned.map (·.body) = [0, 1] ∧
      (q.returned ++ q.txns.flatten.map Candidate.tx).Perm
        (twoBatches.flatten.map Candidate.tx) := by
  obtain ⟨q, hq, hreturned⟩ := Option.map_eq_some_iff.mp (show
    ([(⟨1, 2, false, true⟩, [false, false]), (⟨1, 2, true, true⟩, [false, true])].foldlM
      Pool.callWith (⟨twoBatches, [], []⟩ : Pool ℕ)).map (fun q => q.returned.map (·.body)) =
      some [0, 1] by decide +kernel)
  exact ⟨q, hq, hreturned, BatchHandler.loses_and_repeats_nothing.1 ⟨twoBatches, [], []⟩ q _ hq⟩

/-- A marked batch at the end of the list leaves the index behind the list, and a list without
batches is left at once. -/
theorem BatchHandler.index_leaves_range :
    (∃ s, getTransactionRegister ⟨1, 2, true, true⟩ twoBatches [false, true] = some s ∧
      s.index = s.txns.length) ∧
    getTransactionRegister (T := ℕ) ⟨1, 2, true, true⟩ [] [] = none := by
  obtain ⟨s, hs, hindex⟩ := Option.map_eq_some_iff.mp (show
    (getTransactionRegister ⟨1, 2, true, true⟩ twoBatches [false, true]).map
      (fun s => decide (s.index = s.txns.length)) = some true by decide +kernel)
  exact ⟨⟨s, hs, of_decide_eq_true hindex⟩, rfl⟩

end Anthemius

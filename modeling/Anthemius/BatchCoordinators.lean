import Anthemius.BatchAggregators

/-!
# Own batches

The batch generator cuts the transactions it pulls into fragments and hands these to the local
batch coordinator, which numbers them and gives them to an aggregator of its own. Each of the
three keeps its own counters; they stay in step, so an own fragment is never refused. `none` is
a failed assertion, an `expect` or `unreachable!`.
-/

namespace Anthemius.QuorumStore

/-- A batch being built; transactions are summarised for the requests to mempool. -/
structure BatchBuilder (S : Type) where
  id : BatchId
  summaries : List S
  data : List (List UInt8)
  numTxns : ℕ
  maxTxns : ℕ
  numBytes : ℕ
  maxBytes : ℕ

/-- What the generator sends to the coordinator about its own batches. -/
inductive BatchCoordinatorCommand
  | appendToBatch (fragmentPayload : List (List UInt8)) (batchId : BatchId)
  | endBatch (fragmentPayload : List (List UInt8)) (batchId : BatchId)

namespace BatchBuilder

variable {S T : Type}

def new (batchId : BatchId) (maxTxns maxBytes : ℕ) : BatchBuilder S :=
  ⟨batchId, [], [], 0, maxTxns, 0, maxBytes⟩

/-- The transaction is put to the batch, or is refused because the batch is full. -/
def appendTransaction (encode : T → List UInt8) (summary : T → S) (b : BatchBuilder S) (txn : T) :
    Option (BatchBuilder S) :=
  if b.numBytes + (encode txn).length ≤ b.maxBytes ∧ b.numTxns < b.maxTxns then
    some { b with
      numTxns := b.numTxns + 1
      numBytes := b.numBytes + (encode txn).length
      summaries := b.summaries ++ [summary txn]
      data := b.data ++ [encode txn] }
  else none

/-- The loop over the pulled transactions; it stops when the batch is full. -/
def appendAll (encode : T → List UInt8) (summary : T → S) :
    BatchBuilder S → List T → BatchBuilder S × Bool
  | b, [] => (b, false)
  | b, txn :: txns =>
    match b.appendTransaction encode summary txn with
    | some b' => appendAll encode summary b' txns
    | none => (b, true)

/-- Clears the state and increments the batch id. -/
def takeSummaries (b : BatchBuilder S) : Option (BatchBuilder S × List S) :=
  if b.data.isEmpty then
    some ({ b with id := b.id.increment, numBytes := 0, numTxns := 0, summaries := [] },
      b.summaries)
  else none

/-- One scheduled pull, with the command that is sent. `timeUp` is the comparison of the time
since the last batch with `end_batch_ms`. -/
def handleScheduledPull (encode : T → List UInt8) (summary : T → S) (b : BatchBuilder S)
    (pulledTxns : List T) (timeUp endBatchWhenBackPressure : Bool) :
    Option (BatchBuilder S × Option BatchCoordinatorCommand) :=
  let r := b.appendAll encode summary pulledTxns
  let b' := { r.1 with data := [] }
  if r.2 || timeUp || endBatchWhenBackPressure then
    if b'.summaries.isEmpty then some (b', none)
    else b'.takeSummaries.map fun s => (s.1, some (.endBatch r.1.data b'.id))
  else if r.1.data.isEmpty then some (b', none)
  else some (b', some (.appendToBatch r.1.data b'.id))

/-- All commands of a sequence of pulls. -/
def pulls (encode : T → List UInt8) (summary : T → S) :
    BatchBuilder S → List (List T × Bool × Bool) →
      Option (BatchBuilder S × List BatchCoordinatorCommand)
  | b, [] => some (b, [])
  | b, p :: ps => do
    let (b', command) ← b.handleScheduledPull encode summary p.1 p.2.1 p.2.2
    let (b'', commands) ← pulls encode summary b' ps
    return (b'', command.toList ++ commands)

variable {encode : T → List UInt8} {summary : T → S}

theorem appendTransaction_eq_some {b b' : BatchBuilder S} {txn : T}
    (h : b.appendTransaction encode summary txn = some b') :
    b'.data = b.data ++ [encode txn] ∧ b'.summaries = b.summaries ++ [summary txn] ∧
      b'.numBytes = b.numBytes + (encode txn).length ∧ b'.numBytes ≤ b'.maxBytes ∧
      b'.id = b.id ∧ b'.maxBytes = b.maxBytes := by
  rw [appendTransaction] at h
  split at h
  case isTrue hfits =>
    obtain rfl := Option.some.inj h
    exact ⟨rfl, rfl, rfl, hfits.1, rfl, rfl⟩
  case isFalse => exact absurd h (by simp)

/-- The loop takes some of the transactions, within the byte limit. -/
theorem appendAll_spec (encode : T → List UInt8) (summary : T → S) (txns : List T) :
    ∀ b : BatchBuilder S, b.numBytes ≤ b.maxBytes →
    ∃ taken : List T, (b.appendAll encode summary txns).1.data = b.data ++ taken.map encode ∧
      (b.appendAll encode summary txns).1.summaries = b.summaries ++ taken.map summary ∧
      (b.appendAll encode summary txns).1.numBytes =
        b.numBytes + (taken.map encode).flatten.length ∧
      (b.appendAll encode summary txns).1.numBytes ≤ b.maxBytes ∧
      (b.appendAll encode summary txns).1.id = b.id ∧
      (b.appendAll encode summary txns).1.maxBytes = b.maxBytes := by
  induction txns with
  | nil =>
    intro b hb
    exact ⟨[], by simp [appendAll], by simp [appendAll], by simp [appendAll], hb, rfl, rfl⟩
  | cons txn txns ih =>
    intro b hb
    rw [appendAll]
    cases hb' : b.appendTransaction encode summary txn with
    | none => exact ⟨[], by simp, by simp, by simp, hb, rfl, rfl⟩
    | some b' =>
      obtain ⟨hdata', hsummaries', hbytes', hle', hid', hmax'⟩ := appendTransaction_eq_some hb'
      obtain ⟨taken, hdata, hsummaries, hbytes, hbound, hid, hmax⟩ := ih b' hle'
      refine ⟨txn :: taken, ?_, ?_, ?_, hmax' ▸ hbound, hid.trans hid', hmax.trans hmax'⟩
      · simp only [hdata, hdata', List.append_assoc, List.singleton_append, List.map_cons]
      · simp only [hsummaries, hsummaries', List.append_assoc, List.singleton_append,
          List.map_cons]
      · simp only [hbytes, hbytes', List.map_cons, List.flatten_cons, List.length_append]
        omega

end BatchBuilder

/-- The part of the batch coordinator that handles own batches. -/
structure BatchCoordinator (T : Type) where
  localBatchAggregator : BatchAggregator T
  localFragmentId : ℕ

namespace BatchCoordinator

variable {S T H : Type}

def new (maxBatchBytes : ℕ) : BatchCoordinator T := ⟨.new maxBatchBytes, 0⟩

def handle (decode : List UInt8 → Option T) (hash : List UInt8 → H) (c : BatchCoordinator T) :
    BatchCoordinatorCommand → Option (BatchCoordinator T)
  | .appendToBatch fragmentPayload batchId =>
    match c.localBatchAggregator.appendTransactions decode
      ⟨batchId, c.localFragmentId, fragmentPayload⟩ with
    | some (a, .ok ()) => some ⟨a, c.localFragmentId + 1⟩
    | _ => none
  | .endBatch fragmentPayload batchId =>
    match c.localBatchAggregator.endBatch decode hash
      ⟨batchId, c.localFragmentId, fragmentPayload⟩ with
    | some (a, .ok _) => some ⟨a, 0⟩
    | _ => none

def handleAll (decode : List UInt8 → Option T) (hash : List UInt8 → H) (c : BatchCoordinator T)
    (commands : List BatchCoordinatorCommand) : Option (BatchCoordinator T) :=
  commands.foldlM (handle decode hash) c

theorem handleAll_singleton (decode : List UInt8 → Option T) (hash : List UInt8 → H)
    (c : BatchCoordinator T) (command : BatchCoordinatorCommand) :
    c.handleAll decode hash [command] = c.handle decode hash command := by
  simp [handleAll]

/-- The aggregator holds the batch the builder has handed out so far, with as many fragments as
the coordinator has counted; or a new batch is to start. -/
structure InStep (decode : List UInt8 → Option T) (maxBytes : ℕ) (b : BatchBuilder S)
    (c : BatchCoordinator T) : Prop where
  data : b.data = []
  builderLimit : b.maxBytes = maxBytes
  limit : c.localBatchAggregator.maxBatchBytes = maxBytes
  agree : (c.localFragmentId = 0 ∧ c.localBatchAggregator.batchState = none ∧ b.numBytes = 0 ∧
      ∀ id, c.localBatchAggregator.batchId = some id → BatchAggregator.isNewBatch b.id id = true) ∨
    ∃ state held, c.localBatchAggregator.batchState = some state ∧
      c.localBatchAggregator.batchId = some b.id ∧ state.numFragments = c.localFragmentId ∧
      c.localFragmentId ≠ 0 ∧ state.Holds decode maxBytes held ∧ b.numBytes = state.numBytes

variable {decode : List UInt8 → Option T} {maxBytes : ℕ} {b : BatchBuilder S}
  {c : BatchCoordinator T}

theorem InStep.numBytes_le (h : InStep decode maxBytes b c) : b.numBytes ≤ b.maxBytes := by
  rw [h.builderLimit]
  rcases h.agree with ⟨-, -, hzero, -⟩ | ⟨state, held, -, -, -, -, hheld, heq⟩
  · rw [hzero]
    exact Nat.zero_le _
  · rw [heq]
    exact hheld.bound

theorem InStep.accepts (h : InStep decode maxBytes b c) {l : List (List UInt8)}
    (hdecode : ∀ bytes ∈ l, ∃ txn, decode bytes = some txn)
    (hfits : b.numBytes + l.flatten.length ≤ maxBytes) :
    ∃ state held, state.Holds decode maxBytes held ∧
      state.numFragments = c.localFragmentId + 1 ∧
      state.numBytes = b.numBytes + l.flatten.length ∧
      c.localBatchAggregator.appendTransactions decode ⟨b.id, c.localFragmentId, l⟩ =
        some ({ c.localBatchAggregator with batchId := some b.id, batchState := some state },
          .ok ()) := by
  rcases h.agree with ⟨hzero, hnone, hbytes, hnew⟩ |
    ⟨state, held, hstate, hid, hnum, hne, hheld, hbytes⟩
  · have hout : c.localBatchAggregator.isOutdatedFragment b.id c.localFragmentId = false := by
      rw [BatchAggregator.isOutdatedFragment]
      cases hid : c.localBatchAggregator.batchId with
      | none => rfl
      | some id => exact if_pos (hnew id hid)
    have hmissed :
        c.localBatchAggregator.isMissedFragment b.id c.localFragmentId = some false := by
      rw [BatchAggregator.isMissedFragment]
      cases hid : c.localBatchAggregator.batchId with
      | none => simp [hzero]
      | some id => simp [hnew id hid, hnone, hzero]
    have hnewState := IncrementalBatchState.holds_new decode maxBytes
    have hok := hnewState.appendTransactions_ok hdecode (by
      rw [hbytes] at hfits
      exact hfits)
    have hall := hnewState.appendTransactions_of_ok hok
    refine ⟨_, _, hall, by simp [hzero, IncrementalBatchState.new], ?_, ?_⟩
    · rw [hall.numBytes, hbytes]
      simp
    · rw [BatchAggregator.appendTransactions_first hout hmissed (fun _ => hnone) hzero,
        BatchAggregator.take_eq (if_pos hzero)]
      simp only [h.limit, hok]
  · have hnext : c.localBatchAggregator.nextFragmentId = c.localFragmentId := by
      rw [BatchAggregator.nextFragmentId, hstate]
      exact hnum
    have hsame : BatchAggregator.isNewBatch b.id b.id = false := by
      simp [BatchAggregator.isNewBatch, BatchId.Before]
    have hout : c.localBatchAggregator.isOutdatedFragment b.id c.localFragmentId = false := by
      rw [BatchAggregator.isOutdatedFragment, hid]
      simp [hsame, hnext, hne, BatchId.Before]
    have hmissed := BatchAggregator.isMissedFragment_same (f := ⟨b.id, c.localFragmentId, l⟩)
      hid hsame rfl
    rw [decide_eq_false (by rw [hnext]; exact Nat.lt_irrefl _)] at hmissed
    have hok := hheld.appendTransactions_ok hdecode (hbytes ▸ hfits)
    have hall := hheld.appendTransactions_of_ok hok
    refine ⟨_, _, hall, by simp [hnum], ?_, ?_⟩
    · rw [hall.numBytes, hbytes, hheld.numBytes, List.flatten_append, List.length_append]
    · rw [BatchAggregator.appendTransactions_next hout hmissed hid,
        BatchAggregator.take_eq ((if_neg hne).trans hstate), hid]
      simp only [hok]

theorem handle_appendToBatch {hash : List UInt8 → H} {l : List (List UInt8)} {id : BatchId}
    {a : BatchAggregator T} (happend : c.localBatchAggregator.appendTransactions decode
      ⟨id, c.localFragmentId, l⟩ = some (a, .ok ())) :
    c.handle decode hash (.appendToBatch l id) = some ⟨a, c.localFragmentId + 1⟩ := by
  rw [handle, happend]

theorem handle_endBatch {hash : List UInt8 → H} {l : List (List UInt8)} {id : BatchId}
    {a : BatchAggregator T} {state : IncrementalBatchState T}
    (happend : c.localBatchAggregator.appendTransactions decode
      ⟨id, c.localFragmentId, l⟩ = some (a, .ok ())) (hstate : a.batchState = some state)
    (hok : state.status = .ok ()) :
    c.handle decode hash (.endBatch l id) = some ⟨{ a with batchState := none }, 0⟩ := by
  have hfinal : state.finalizeBatch hash = .ok (state.numBytes, state.txns, hash state.hashed) := by
    rw [IncrementalBatchState.finalizeBatch, hok]
  rw [handle, BatchAggregator.endBatch, happend]
  simp only [hstate, hfinal]

theorem InStep.pull {encode : T → List UInt8} (hcodec : ∀ txn, decode (encode txn) = some txn)
    (summary : T → S) (hash : List UInt8 → H) (h : InStep decode maxBytes b c)
    (pulledTxns : List T) (timeUp backPressure : Bool) :
    ∃ b' command c', b.handleScheduledPull encode summary pulledTxns timeUp backPressure =
        some (b', command) ∧ c.handleAll decode hash command.toList = some c' ∧
      InStep decode maxBytes b' c' := by
  obtain ⟨taken, hdata, hsummaries, hbytes, hbound, hid, hmax⟩ :=
    BatchBuilder.appendAll_spec encode summary pulledTxns b h.numBytes_le
  rw [h.data, List.nil_append] at hdata
  have hdecode : ∀ bytes ∈ taken.map encode, ∃ txn, decode bytes = some txn := by
    intro bytes hmem
    obtain ⟨txn, -, rfl⟩ := List.mem_map.mp hmem
    exact ⟨txn, hcodec txn⟩
  obtain ⟨state, held, hheld, hnum, hstateBytes, happend⟩ :=
    h.accepts hdecode (by rw [← hbytes, ← h.builderLimit]; exact hbound)
  -- nothing taken, nothing sent: the builder has the id and the bytes it had
  have hquiet : taken = [] → InStep decode maxBytes
      { (b.appendAll encode summary pulledTxns).1 with data := [] } c := by
    rintro rfl
    refine ⟨rfl, hmax.trans h.builderLimit, h.limit, ?_⟩
    simp only [hid, hbytes, List.map_nil, List.flatten_nil, List.length_nil, Nat.add_zero]
    exact h.agree
  rw [BatchBuilder.handleScheduledPull]
  simp only
  split
  · split
    next hempty =>
      rw [List.isEmpty_iff, hsummaries, List.append_eq_nil_iff, List.map_eq_nil_iff] at hempty
      exact ⟨_, _, c, rfl, rfl, hquiet hempty.2⟩
    · refine ⟨_, _, ⟨{ c.localBatchAggregator with batchId := some b.id, batchState := none }, 0⟩,
        rfl, ?_, ?_⟩
      · rw [Option.toList_some, handleAll_singleton, hdata, hid]
        exact handle_endBatch happend rfl hheld.status
      · refine ⟨rfl, hmax.trans h.builderLimit, h.limit, .inl ⟨rfl, rfl, rfl, ?_⟩⟩
        intro id hid'
        obtain rfl := Option.some.inj hid'
        simp [hid, BatchAggregator.isNewBatch, BatchId.Before, BatchId.increment]
  · split
    next hempty =>
      rw [List.isEmpty_iff, hdata, List.map_eq_nil_iff] at hempty
      exact ⟨_, _, c, rfl, rfl, hquiet hempty⟩
    · refine ⟨_, _, ⟨{ c.localBatchAggregator with batchId := some b.id, batchState := some state },
        c.localFragmentId + 1⟩, rfl, ?_, ?_⟩
      · rw [Option.toList_some, handleAll_singleton, hdata, hid]
        exact handle_appendToBatch happend
      · refine ⟨rfl, hmax.trans h.builderLimit, h.limit, .inr ⟨state, held, rfl, ?_, hnum, ?_⟩⟩
        · rw [hid]
        · exact ⟨Nat.succ_ne_zero _, hheld, hbytes.trans hstateBytes.symm⟩

theorem InStep.pulls {encode : T → List UInt8} (hcodec : ∀ txn, decode (encode txn) = some txn)
    (summary : T → S) (hash : List UInt8 → H) (ps : List (List T × Bool × Bool)) :
    ∀ {b : BatchBuilder S} {c : BatchCoordinator T}, InStep decode maxBytes b c →
      ∃ b' commands c', b.pulls encode summary ps = some (b', commands) ∧
        c.handleAll decode hash commands = some c' ∧ InStep decode maxBytes b' c' := by
  induction ps with
  | nil => exact fun h => ⟨_, [], _, rfl, rfl, h⟩
  | cons p ps ih =>
    intro b c h
    obtain ⟨b₁, command, c₁, hpull, hhandle, h₁⟩ := h.pull hcodec summary hash p.1 p.2.1 p.2.2
    obtain ⟨b₂, commands, c₂, hpulls, hhandles, h₂⟩ := ih h₁
    refine ⟨b₂, command.toList ++ commands, c₂, ?_, ?_, h₂⟩
    · rw [BatchBuilder.pulls, hpull]
      simp [hpulls]
    · rw [handleAll] at hhandle ⊢
      rw [List.foldlM_append, hhandle]
      exact hhandles

end BatchCoordinator

end Anthemius.QuorumStore

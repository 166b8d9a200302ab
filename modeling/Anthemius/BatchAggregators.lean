import Mathlib.Data.List.Basic
import Mathlib.Tactic.Common

/-!
# Batches put together from fragments

A peer's batch arrives in numbered fragments, in any order and with any bytes. The aggregator
tells outdated, missed and next fragments apart by the batch id and the number of fragments it
has. `none` is a failed assertion or `expect`.
-/

namespace Anthemius.QuorumStore

structure BatchId where
  id : ℕ
  nonce : ℕ
  deriving DecidableEq, Repr

namespace BatchId

/-- The order of ids: by `id`, then by `nonce`. -/
def Before (a b : BatchId) : Prop := a.id < b.id ∨ a.id = b.id ∧ a.nonce < b.nonce

instance (a b : BatchId) : Decidable (a.Before b) :=
  inferInstanceAs (Decidable (a.id < b.id ∨ a.id = b.id ∧ a.nonce < b.nonce))

theorem eq_of_not_before {a b : BatchId} (h : ¬ a.Before b) (h' : ¬ b.Before a) : a = b := by
  unfold Before at h h'
  obtain ⟨i, m⟩ := a
  obtain ⟨j, n⟩ := b
  rw [BatchId.mk.injEq]
  simp only at h h'
  omega

def increment (b : BatchId) : BatchId := { b with id := b.id + 1 }

end BatchId

inductive BatchAggregationError
  | deserializationError
  | sizeLimitExceeded
  | outdatedFragment
  | missedFragment
  deriving DecidableEq, Repr

/-- A batch as far as it is aggregated; `hashed` is what the hasher has been fed. -/
structure IncrementalBatchState (T : Type) where
  numFragments : ℕ
  status : Except BatchAggregationError Unit
  txns : List T
  hashed : List UInt8
  numBytes : ℕ
  maxBytes : ℕ

namespace IncrementalBatchState

variable {T : Type}

def new (maxBytes : ℕ) : IncrementalBatchState T := ⟨0, .ok (), [], [], 0, maxBytes⟩

/-- The loop over the serialized transactions of a fragment; it stops at the first error. -/
def addAll (decode : List UInt8 → Option T) (s : IncrementalBatchState T) :
    List (List UInt8) → IncrementalBatchState T
  | [] => s
  | bytes :: rest =>
    if s.maxBytes < s.numBytes + bytes.length then
      { s with
        numBytes := s.numBytes + bytes.length
        hashed := s.hashed ++ bytes
        status := .error .sizeLimitExceeded }
    else
      match decode bytes with
      | some txn =>
        addAll decode
          { s with
            numBytes := s.numBytes + bytes.length
            hashed := s.hashed ++ bytes
            txns := s.txns ++ [txn] } rest
      | none =>
        { s with
          numBytes := s.numBytes + bytes.length
          hashed := s.hashed ++ bytes
          status := .error .deserializationError }

def appendTransactions (decode : List UInt8 → Option T) (s : IncrementalBatchState T)
    (serializedTxns : List (List UInt8)) : IncrementalBatchState T :=
  match s.status with
  | .ok () => { s with numFragments := s.numFragments + 1 }.addAll decode serializedTxns
  | .error _ => { s with numFragments := s.numFragments + 1 }

def finalizeBatch {H : Type} (hash : List UInt8 → H) (s : IncrementalBatchState T) :
    Except BatchAggregationError (ℕ × List T × H) :=
  match s.status with
  | .ok () => .ok (s.numBytes, s.txns, hash s.hashed)
  | .error e => .error e

variable {decode : List UInt8 → Option T}

theorem appendTransactions_of_status_ok {s : IncrementalBatchState T} (h : s.status = .ok ())
    (l : List (List UInt8)) : s.appendTransactions decode l =
      { s with numFragments := s.numFragments + 1 }.addAll decode l := by
  rw [appendTransactions]
  split
  · rfl
  next e he => exact absurd (h.symm.trans he) (by simp)

theorem appendTransactions_of_status_error {s : IncrementalBatchState T}
    {e : BatchAggregationError} (h : s.status = .error e) (l : List (List UInt8)) :
    s.appendTransactions decode l = { s with numFragments := s.numFragments + 1 } := by
  rw [appendTransactions]
  split
  next hok => exact absurd (h.symm.trans hok) (by simp)
  · rfl

theorem addAll_numFragments (l : List (List UInt8)) :
    ∀ s : IncrementalBatchState T, (s.addAll decode l).numFragments = s.numFragments := by
  induction l with
  | nil => exact fun _ => rfl
  | cons bytes rest ih =>
    intro s
    rw [addAll]
    split
    · rfl
    · split
      · exact ih _
      · rfl

@[simp] theorem appendTransactions_numFragments (s : IncrementalBatchState T)
    (l : List (List UInt8)) :
    (s.appendTransactions decode l).numFragments = s.numFragments + 1 := by
  rw [appendTransactions]
  split
  · exact addAll_numFragments l _
  · rfl

/-- The state holds exactly the given serialized transactions, within the limit. -/
structure Holds (decode : List UInt8 → Option T) (maxBytes : ℕ) (s : IncrementalBatchState T)
    (l : List (List UInt8)) : Prop where
  status : s.status = .ok ()
  txns : l.mapM decode = some s.txns
  hashed : s.hashed = l.flatten
  numBytes : s.numBytes = l.flatten.length
  limit : s.maxBytes = maxBytes
  bound : s.numBytes ≤ maxBytes

variable {maxBytes : ℕ} {s : IncrementalBatchState T} {held : List (List UInt8)}

theorem holds_new (decode : List UInt8 → Option T) (maxBytes : ℕ) :
    Holds decode maxBytes (new maxBytes) [] :=
  ⟨rfl, rfl, rfl, rfl, rfl, Nat.zero_le _⟩

theorem Holds.add (h : Holds decode maxBytes s held) {bytes : List UInt8} {txn : T}
    (hfits : s.numBytes + bytes.length ≤ maxBytes) (htxn : decode bytes = some txn) :
    Holds decode maxBytes
      { s with
        numBytes := s.numBytes + bytes.length
        hashed := s.hashed ++ bytes
        txns := s.txns ++ [txn] } (held ++ [bytes]) where
  status := h.status
  txns := by simp [h.txns, htxn]
  hashed := by simp [h.hashed]
  numBytes := by simp [h.numBytes]
  limit := h.limit
  bound := hfits

/-- The loop either ends without error and holds all it was given, or with an error. -/
theorem Holds.addAll_of_ok (l : List (List UInt8)) :
    ∀ {s : IncrementalBatchState T} {held : List (List UInt8)}, Holds decode maxBytes s held →
      (s.addAll decode l).status = .ok () →
        Holds decode maxBytes (s.addAll decode l) (held ++ l) := by
  induction l with
  | nil =>
    intro s held h _
    rwa [List.append_nil]
  | cons bytes rest ih =>
    intro s held h hok
    rw [addAll] at hok ⊢
    split at hok
    · exact absurd hok (by simp)
    next hlimit =>
      rw [if_neg hlimit]
      split at hok
      next txn htxn =>
        have hfits : s.numBytes + bytes.length ≤ maxBytes := by
          rw [← h.limit]
          omega
        have hall := ih (h.add hfits htxn) hok
        rwa [List.append_assoc, List.singleton_append] at hall
      · exact absurd hok (by simp)

theorem Holds.addAll_ok (l : List (List UInt8)) :
    ∀ {s : IncrementalBatchState T} {held : List (List UInt8)}, Holds decode maxBytes s held →
      (∀ bytes ∈ l, ∃ txn, decode bytes = some txn) →
      s.numBytes + l.flatten.length ≤ maxBytes → (s.addAll decode l).status = .ok () := by
  induction l with
  | nil => exact fun h _ _ => h.status
  | cons bytes rest ih =>
    intro s held h hdecode hfits
    rw [List.flatten_cons, List.length_append] at hfits
    obtain ⟨txn, htxn⟩ := hdecode bytes List.mem_cons_self
    have hlimit : ¬ s.maxBytes < s.numBytes + bytes.length := by
      rw [h.limit]
      omega
    rw [addAll, if_neg hlimit, htxn]
    refine ih (h.add (by omega) htxn) (fun b hb => hdecode b (List.mem_cons_of_mem _ hb)) ?_
    simp only
    omega

theorem Holds.appendTransactions_of_ok (h : Holds decode maxBytes s held) {l : List (List UInt8)}
    (hok : (s.appendTransactions decode l).status = .ok ()) :
    Holds decode maxBytes (s.appendTransactions decode l) (held ++ l) := by
  rw [appendTransactions_of_status_ok h.status] at hok ⊢
  have h' : Holds decode maxBytes { s with numFragments := s.numFragments + 1 } held :=
    ⟨h.status, h.txns, h.hashed, h.numBytes, h.limit, h.bound⟩
  exact h'.addAll_of_ok l hok

theorem Holds.appendTransactions_ok (h : Holds decode maxBytes s held) {l : List (List UInt8)}
    (hdecode : ∀ bytes ∈ l, ∃ txn, decode bytes = some txn)
    (hfits : s.numBytes + l.flatten.length ≤ maxBytes) :
    (s.appendTransactions decode l).status = .ok () := by
  rw [appendTransactions_of_status_ok h.status]
  have h' : Holds decode maxBytes { s with numFragments := s.numFragments + 1 } held :=
    ⟨h.status, h.txns, h.hashed, h.numBytes, h.limit, h.bound⟩
  exact h'.addAll_ok l hdecode hfits

/-- An error stays. -/
theorem status_of_appendTransactions_ok {l : List (List UInt8)}
    (hok : (s.appendTransactions decode l).status = .ok ()) : s.status = .ok () := by
  cases hs : s.status with
  | ok u => rfl
  | error e =>
    rw [appendTransactions_of_status_error hs] at hok
    exact hs.symm.trans hok

end IncrementalBatchState

/-- A fragment of a batch: its number and the serialized transactions. -/
structure BatchFragment where
  batchId : BatchId
  fragmentId : ℕ
  transactions : List (List UInt8)

structure BatchAggregator (T : Type) where
  batchId : Option BatchId
  batchState : Option (IncrementalBatchState T)
  maxBatchBytes : ℕ

namespace BatchAggregator

variable {T H : Type}

def new (maxBatchBytes : ℕ) : BatchAggregator T := ⟨none, none, maxBatchBytes⟩

def nextFragmentId (a : BatchAggregator T) : ℕ :=
  match a.batchState with
  | some state => state.numFragments
  | none => 0

/-- A changed nonce is a new batch, after the validator's database was wiped. -/
def isNewBatch (batchId prevBatchId : BatchId) : Bool :=
  batchId.nonce ≠ prevBatchId.nonce ∨ prevBatchId.Before batchId

def isOutdatedFragment (a : BatchAggregator T) (batchId : BatchId) (fragmentId : ℕ) : Bool :=
  match a.batchId with
  | some selfBatchId =>
    if isNewBatch batchId selfBatchId then false
    else if a.nextFragmentId = 0 then
      ¬ selfBatchId.Before batchId
    else
      batchId.Before selfBatchId ∨ batchId = selfBatchId ∧ fragmentId < a.nextFragmentId
  | none => false

/-- To be called for a fragment that is not outdated; the assertion says so. -/
def isMissedFragment (a : BatchAggregator T) (batchId : BatchId) (fragmentId : ℕ) : Option Bool :=
  match a.batchId with
  | some selfBatchId =>
    if isNewBatch batchId selfBatchId then some (a.batchState.isSome || decide (0 < fragmentId))
    else if batchId = selfBatchId then some (decide (a.nextFragmentId < fragmentId))
    else none
  | none => some (decide (0 < fragmentId))

/-- The fragment is put to the batch of the state; the first one makes a new state. -/
def take (decode : List UInt8 → Option T) (a : BatchAggregator T) (f : BatchFragment) :
    BatchAggregator T × Except BatchAggregationError Unit :=
  match if f.fragmentId = 0 then some (.new a.maxBatchBytes) else a.batchState with
  | some state =>
    ({ a with batchState := some (state.appendTransactions decode f.transactions) },
      (state.appendTransactions decode f.transactions).status)
  | none => (a, .ok ())

def appendTransactions (decode : List UInt8 → Option T) (a : BatchAggregator T)
    (f : BatchFragment) : Option (BatchAggregator T × Except BatchAggregationError Unit) :=
  if a.isOutdatedFragment f.batchId f.fragmentId then
    some (a, .error .outdatedFragment)
  else
    match a.isMissedFragment f.batchId f.fragmentId with
    | none => none
    | some true =>
      if f.fragmentId ≠ 0 then
        some ({ a with batchId := some f.batchId, batchState := none }, .error .missedFragment)
      else
        some ({ a with batchId := some f.batchId, batchState := none }.take decode f)
    | some false => some ({ a with batchId := some f.batchId }.take decode f)

def endBatch (decode : List UInt8 → Option T) (hash : List UInt8 → H) (a : BatchAggregator T)
    (f : BatchFragment) :
    Option (BatchAggregator T × Except BatchAggregationError (ℕ × List T × H)) :=
  match a.appendTransactions decode f with
  | none => none
  | some (a', .error e) => some (a', .error e)
  | some (a', .ok ()) =>
    match a'.batchState with
    | none => none
    | some state => some ({ a' with batchState := none }, state.finalizeBatch hash)

/-- A state has a fragment, and a batch it belongs to. -/
def Started (a : BatchAggregator T) : Prop :=
  ∀ state, a.batchState = some state → 0 < state.numFragments ∧ a.batchId ≠ none

variable {decode : List UInt8 → Option T} {a : BatchAggregator T} {f : BatchFragment}

theorem take_eq {state : IncrementalBatchState T}
    (h : (if f.fragmentId = 0 then some (.new a.maxBatchBytes) else a.batchState) = some state) :
    a.take decode f =
      ({ a with batchState := some (state.appendTransactions decode f.transactions) },
        (state.appendTransactions decode f.transactions).status) := by
  rw [take, h]

theorem eq_of_not_isOutdatedFragment {b : BatchId} (hb : a.batchId = some b)
    (hnew : isNewBatch f.batchId b = false)
    (hout : a.isOutdatedFragment f.batchId f.fragmentId = false) :
    f.batchId = b ∧ a.nextFragmentId ≠ 0 ∧ a.nextFragmentId ≤ f.fragmentId := by
  have hnot : ¬ b.Before f.batchId := by
    simp only [isNewBatch, decide_eq_false_iff_not, not_or] at hnew
    exact hnew.2
  rw [isOutdatedFragment, hb] at hout
  simp only [hnew, Bool.false_eq_true, if_false] at hout
  split at hout
  case isTrue => exact absurd hout (by simp [hnot])
  case isFalse hnext =>
    simp only [decide_eq_false_iff_not, not_or, not_and] at hout
    have heq := BatchId.eq_of_not_before hout.1 hnot
    exact ⟨heq, hnext, Nat.le_of_not_lt (hout.2 heq)⟩

theorem exists_of_nextFragmentId_ne (h : a.nextFragmentId ≠ 0) :
    ∃ state, a.batchState = some state ∧ state.numFragments = a.nextFragmentId := by
  rw [nextFragmentId] at h ⊢
  split at h
  next state hstate => exact ⟨state, hstate, rfl⟩
  · exact absurd rfl h

theorem isMissedFragment_new {b : BatchId} (hb : a.batchId = some b)
    (hnew : isNewBatch f.batchId b = true) : a.isMissedFragment f.batchId f.fragmentId =
      some (a.batchState.isSome || decide (0 < f.fragmentId)) := by
  rw [isMissedFragment, hb]
  exact if_pos hnew

theorem isMissedFragment_same {b : BatchId} (hb : a.batchId = some b)
    (hnew : isNewBatch f.batchId b = false) (heq : f.batchId = b) :
    a.isMissedFragment f.batchId f.fragmentId =
      some (decide (a.nextFragmentId < f.fragmentId)) := by
  rw [isMissedFragment, hb]
  exact (if_neg (by simp [hnew])).trans (if_pos heq)

theorem appendTransactions_missed (hout : a.isOutdatedFragment f.batchId f.fragmentId = false)
    (hmissed : a.isMissedFragment f.batchId f.fragmentId = some true) (hne : f.fragmentId ≠ 0) :
    a.appendTransactions decode f =
      some ({ a with batchId := some f.batchId, batchState := none }, .error .missedFragment) := by
  rw [appendTransactions, if_neg (by simp [hout]), hmissed]
  exact if_pos hne

theorem appendTransactions_first {missed : Bool}
    (hout : a.isOutdatedFragment f.batchId f.fragmentId = false)
    (hmissed : a.isMissedFragment f.batchId f.fragmentId = some missed)
    (hclear : missed = false → a.batchState = none) (hzero : f.fragmentId = 0) :
    a.appendTransactions decode f =
      some ({ a with batchId := some f.batchId, batchState := none }.take decode f) := by
  rw [appendTransactions, if_neg (by simp [hout]), hmissed]
  cases missed with
  | true => exact if_neg (by simp [hzero])
  | false => simp only [hclear rfl]

theorem appendTransactions_next (hout : a.isOutdatedFragment f.batchId f.fragmentId = false)
    (hmissed : a.isMissedFragment f.batchId f.fragmentId = some false)
    (hb : a.batchId = some f.batchId) : a.appendTransactions decode f = some (a.take decode f) := by
  rw [appendTransactions, if_neg (by simp [hout]), hmissed, ← hb]

/-- What a fragment can do: nothing, end the batch being aggregated, start a batch, or go on with
the batch as its next fragment. No assertion fails. -/
theorem appendTransactions_cases (decode : List UInt8 → Option T) (ha : a.Started)
    (f : BatchFragment) :
    a.appendTransactions decode f = some (a, .error .outdatedFragment) ∨
    (f.fragmentId ≠ 0 ∧ a.appendTransactions decode f =
      some ({ a with batchId := some f.batchId, batchState := none }, .error .missedFragment)) ∨
    (f.fragmentId = 0 ∧ a.appendTransactions decode f =
      some ({ a with batchId := some f.batchId, batchState := none }.take decode f)) ∨
    ∃ state, a.batchState = some state ∧ a.batchId = some f.batchId ∧
      f.fragmentId = state.numFragments ∧
      a.appendTransactions decode f = some (a.take decode f) := by
  cases hout : a.isOutdatedFragment f.batchId f.fragmentId with
  | true => exact .inl (by rw [appendTransactions, if_pos hout])
  | false =>
    refine .inr ?_
    -- a batch that is new, the very first one included, starts with its first fragment only
    have hstart : ∀ missed, a.isMissedFragment f.batchId f.fragmentId = some missed →
        (missed = false ↔ a.batchState = none ∧ f.fragmentId = 0) →
        (f.fragmentId ≠ 0 ∧ a.appendTransactions decode f =
          some ({ a with batchId := some f.batchId, batchState := none },
            .error .missedFragment)) ∨
        (f.fragmentId = 0 ∧ a.appendTransactions decode f =
          some ({ a with batchId := some f.batchId, batchState := none }.take decode f)) := by
      intro missed hmissed hiff
      by_cases hzero : f.fragmentId = 0
      · exact .inr ⟨hzero, appendTransactions_first hout hmissed (fun h => (hiff.mp h).1) hzero⟩
      · obtain rfl : missed = true := by
          rw [← Bool.not_eq_false]
          exact fun h => hzero (hiff.mp h).2
        exact .inl ⟨hzero, appendTransactions_missed hout hmissed hzero⟩
    cases hb : a.batchId with
    | none =>
      have hnone : a.batchState = none := by
        by_contra hsome
        obtain ⟨state, hstate⟩ := Option.ne_none_iff_exists'.mp hsome
        exact (ha state hstate).2 hb
      rcases hstart _ (by rw [isMissedFragment, hb]) (by simp [hnone]) with h | h
      · exact .inl h
      · exact .inr (.inl h)
    | some b =>
      cases hnew : isNewBatch f.batchId b with
      | true =>
        rcases hstart _ (isMissedFragment_new hb hnew) (by simp) with h | h
        · exact .inl h
        · exact .inr (.inl h)
      | false =>
        obtain ⟨heq, hnext, hle⟩ := eq_of_not_isOutdatedFragment hb hnew hout
        have hmissed := isMissedFragment_same hb hnew heq
        rcases Nat.lt_or_eq_of_le hle with hlt | hsame
        · rw [decide_eq_true hlt] at hmissed
          exact .inl ⟨by omega, appendTransactions_missed hout hmissed (by omega)⟩
        · obtain ⟨state, hstate, hnum⟩ := exists_of_nextFragmentId_ne hnext
          rw [decide_eq_false (by omega)] at hmissed
          exact .inr (.inr ⟨state, hstate, by rw [heq], by omega,
            appendTransactions_next hout hmissed (hb.trans (by rw [heq]))⟩)

end BatchAggregator

inductive AggregatorCall
  | appendTransactions (f : BatchFragment)
  | endBatch (f : BatchFragment)

/-- The fragments accepted since the last accepted fragment 0, after one more is accepted. -/
def accept (fs : List BatchFragment) (f : BatchFragment) : List BatchFragment :=
  if f.fragmentId = 0 then [f] else fs ++ [f]

/-- The fragments `0..k` of one batch in order. -/
structure Complete (b : BatchId) (fs : List BatchFragment) : Prop where
  numbered : fs.map BatchFragment.fragmentId = List.range fs.length
  sameBatch : ∀ f ∈ fs, f.batchId = b

theorem complete_first {f : BatchFragment} (hzero : f.fragmentId = 0) : Complete f.batchId [f] where
  numbered := by simp [hzero, List.range_succ]
  sameBatch := fun g hg => by rw [List.mem_singleton.mp hg]

theorem Complete.next {f : BatchFragment} {fs : List BatchFragment} (h : Complete f.batchId fs)
    (hnumber : f.fragmentId = fs.length) : Complete f.batchId (fs ++ [f]) where
  numbered := by simp [h.numbered, hnumber, List.range_succ]
  sameBatch := by
    intro g hg
    rcases List.mem_append.mp hg with hold | hlast
    · exact h.sameBatch g hold
    · rw [List.mem_singleton.mp hlast]

/-- The bytes of fragments, one list for each serialized transaction. -/
def payload (fs : List BatchFragment) : List (List UInt8) := fs.flatMap BatchFragment.transactions

namespace BatchAggregator

variable {T H : Type}

def call (decode : List UInt8 → Option T) (hash : List UInt8 → H) (a : BatchAggregator T) :
    AggregatorCall → Option (BatchAggregator T × BatchFragment × Bool)
  | .appendTransactions f =>
    (a.appendTransactions decode f).map fun r => (r.1, f, r.2.isOk)
  | .endBatch f => (a.endBatch decode hash f).map fun r => (r.1, f, r.2.isOk)

/-- A sequence of calls, with the fragments accepted since the last accepted fragment 0. -/
def calls (decode : List UInt8 → Option T) (hash : List UInt8 → H) :
    BatchAggregator T → List BatchFragment → List AggregatorCall →
      Option (BatchAggregator T × List BatchFragment)
  | a, fs, [] => some (a, fs)
  | a, fs, c :: cs =>
    match a.call decode hash c with
    | none => none
    | some (a', f, ok) => calls decode hash a' (if ok then accept fs f else fs) cs

/-- A state without error holds exactly the fragments accepted since the last fragment 0, and
these are the first ones of the batch. -/
structure Aggregates (decode : List UInt8 → Option T) (maxBytes : ℕ) (a : BatchAggregator T)
    (fs : List BatchFragment) : Prop where
  limit : a.maxBatchBytes = maxBytes
  started : a.Started
  holds : ∀ state, a.batchState = some state → state.status = .ok () →
    state.Holds decode maxBytes (payload fs) ∧ fs.length = state.numFragments ∧
      ∃ b, a.batchId = some b ∧ Complete b fs

variable {decode : List UInt8 → Option T} {maxBytes : ℕ} {a : BatchAggregator T}
  {fs : List BatchFragment} {f : BatchFragment}

theorem aggregates_of_none (hlimit : a.maxBatchBytes = maxBytes) (hnone : a.batchState = none) :
    Aggregates decode maxBytes a fs where
  limit := hlimit
  started := fun _ h => absurd (hnone.symm.trans h) (by simp)
  holds := fun _ h => absurd (hnone.symm.trans h) (by simp)

theorem aggregates_take (decode : List UInt8 → Option T) (fs : List BatchFragment)
    {state : IncrementalBatchState T}
    (hstate : (if f.fragmentId = 0 then some (.new a.maxBatchBytes) else a.batchState) =
      some state)
    (hlimit : a.maxBatchBytes = maxBytes) (hb : a.batchId = some f.batchId)
    (hholds : state.status = .ok () → ∃ held, state.Holds decode maxBytes held ∧
      held ++ f.transactions = payload (accept fs f) ∧
      (accept fs f).length = state.numFragments + 1 ∧ Complete f.batchId (accept fs f)) :
    Aggregates decode maxBytes (a.take decode f).1
      (if (a.take decode f).2.isOk then accept fs f else fs) ∧
    ((a.take decode f).2 = .ok () → ∃ state', (a.take decode f).1.batchState = some state' ∧
      state'.status = .ok () ∧ (a.take decode f).1.batchId = some f.batchId) := by
  rw [take_eq hstate]
  refine ⟨⟨hlimit, ?_, ?_⟩, fun hok => ⟨_, rfl, hok, hb⟩⟩
  · intro state' hstate'
    obtain rfl := Option.some.inj hstate'
    rw [IncrementalBatchState.appendTransactions_numFragments]
    exact ⟨Nat.succ_pos _, by simp [hb]⟩
  · intro state' hstate' hok
    obtain rfl := Option.some.inj hstate'
    obtain ⟨held, hheld, hpayload, hlength, hcomplete⟩ :=
      hholds (IncrementalBatchState.status_of_appendTransactions_ok hok)
    have haccepted : (if (state.appendTransactions decode f.transactions).status.isOk
        then accept fs f else fs) = accept fs f := by
      rw [hok]
      rfl
    rw [haccepted, ← hpayload, IncrementalBatchState.appendTransactions_numFragments]
    exact ⟨hheld.appendTransactions_of_ok hok, hlength, f.batchId, hb, hcomplete⟩

/-- A fragment is accepted or not, without a panic; if it is, the state is without error. -/
theorem Aggregates.appendTransactions (h : Aggregates decode maxBytes a fs) (f : BatchFragment) :
    ∃ a' r, a.appendTransactions decode f = some (a', r) ∧
      Aggregates decode maxBytes a' (if r.isOk then accept fs f else fs) ∧
      (r = .ok () → ∃ state, a'.batchState = some state ∧ state.status = .ok () ∧
        a'.batchId = some f.batchId) := by
  rcases appendTransactions_cases decode h.started f with heq | ⟨-, heq⟩ | ⟨hzero, heq⟩ |
    ⟨state, hstate, hb, hnumber, heq⟩
  · exact ⟨a, _, heq, h, fun hok => absurd hok (by simp)⟩
  · exact ⟨_, _, heq, aggregates_of_none h.limit rfl, fun hok => absurd hok (by simp)⟩
  · have haccept : accept fs f = [f] := if_pos hzero
    refine ⟨_, _, heq, aggregates_take decode fs (if_pos hzero) h.limit rfl fun _ => ⟨[], ?_⟩⟩
    rw [haccept]
    exact ⟨h.limit ▸ IncrementalBatchState.holds_new decode a.maxBatchBytes, by simp [payload],
      rfl, complete_first hzero⟩
  · have hne : f.fragmentId ≠ 0 := by
      have hpos := (h.started state hstate).1
      omega
    have haccept : accept fs f = fs ++ [f] := if_neg hne
    refine ⟨_, _, heq, aggregates_take decode fs ((if_neg hne).trans hstate) h.limit hb ?_⟩
    intro hok
    obtain ⟨hheld, hlength, b, hb', hcomplete⟩ := h.holds state hstate hok
    obtain rfl := Option.some.inj (hb.symm.trans hb')
    rw [haccept]
    exact ⟨payload fs, hheld, by simp [payload], by simp [hlength],
      hcomplete.next (hnumber.trans hlength.symm)⟩

/-- What `end_batch` returns with `Ok`. -/
structure EndsWith (decode : List UInt8 → Option T) (hash : List UInt8 → H) (maxBytes : ℕ)
    (b : BatchId) (fs : List BatchFragment) (numBytes : ℕ) (txns : List T) (digest : H) : Prop where
  complete : Complete b fs
  decoded : (payload fs).mapM decode = some txns
  counted : numBytes = (payload fs).flatten.length
  hashed : digest = hash (payload fs).flatten
  bound : numBytes ≤ maxBytes

theorem Aggregates.endBatch (h : Aggregates decode maxBytes a fs) (hash : List UInt8 → H)
    (f : BatchFragment) :
    ∃ a' r, a.endBatch decode hash f = some (a', r) ∧
      Aggregates decode maxBytes a' (if r.isOk then accept fs f else fs) ∧
      ∀ numBytes txns digest, r = .ok (numBytes, txns, digest) →
        EndsWith decode hash maxBytes f.batchId (accept fs f) numBytes txns digest := by
  obtain ⟨a', r, heq, hagg, hok⟩ := h.appendTransactions f
  rw [BatchAggregator.endBatch, heq]
  cases r with
  | error e => exact ⟨_, _, rfl, hagg, fun _ _ _ hr => absurd hr (by simp)⟩
  | ok u =>
    obtain ⟨state, hstate, hstatus, hb⟩ := hok rfl
    obtain ⟨hheld, -, b, hb', hcomplete⟩ := hagg.holds state hstate hstatus
    obtain rfl := Option.some.inj (hb.symm.trans hb')
    simp only [hstate]
    refine ⟨_, _, rfl, aggregates_of_none hagg.limit rfl, ?_⟩
    intro numBytes txns digest hr
    have hfinal : state.finalizeBatch hash =
        .ok (state.numBytes, state.txns, hash state.hashed) := by
      rw [IncrementalBatchState.finalizeBatch, hstatus]
    obtain ⟨rfl, rfl, rfl⟩ : _ ∧ _ ∧ _ := by simpa using hfinal.symm.trans hr
    exact ⟨hcomplete, hheld.txns, hheld.numBytes, congrArg hash hheld.hashed, hheld.bound⟩

theorem Aggregates.calls (hash : List UInt8 → H) (cs : List AggregatorCall) :
    ∀ {a : BatchAggregator T} {fs : List BatchFragment}, Aggregates decode maxBytes a fs →
      ∃ a' fs', calls decode hash a fs cs = some (a', fs') ∧
        Aggregates decode maxBytes a' fs' := by
  induction cs with
  | nil => exact fun h => ⟨_, _, rfl, h⟩
  | cons c cs ih =>
    intro a fs h
    rw [BatchAggregator.calls]
    cases c with
    | appendTransactions f =>
      obtain ⟨a', r, heq, hagg, -⟩ := h.appendTransactions f
      rw [call, heq]
      exact ih hagg
    | endBatch f =>
      obtain ⟨a', r, heq, hagg, -⟩ := h.endBatch hash f
      rw [call, heq]
      exact ih hagg

end BatchAggregator

end Anthemius.QuorumStore

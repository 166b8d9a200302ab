import Mathlib.Data.Prod.Lex
import Mathlib.Algebra.Order.BigOperators.Group.List
import Mathlib.Algebra.Ring.Nat
import Mathlib.Algebra.Order.Group.Nat
import Mathlib.Data.List.Nodup
import Mathlib.Data.List.TakeWhile
import Mathlib.Tactic.Common

/-!
# The queue of proofs of store

Proofs of store wait in a queue until a block takes them. A map from digests to proofs says which
digests are known, and which of them are committed.
-/
namespace Anthemius.QuorumStore

/-- An epoch and a round in it, ordered by the epoch first. -/
structure LogicalTime where
  epoch : ℕ
  round : ℕ
  deriving DecidableEq

namespace LogicalTime

theorem toLex_injective :
    Function.Injective fun t : LogicalTime => toLex (t.epoch, t.round) := by
  intro a b h
  cases a
  cases b
  cases h
  rfl

instance : LinearOrder LogicalTime :=
  LinearOrder.lift' (fun t => toLex (t.epoch, t.round)) toLex_injective

end LogicalTime

structure SignedDigestInfo (D : Type) where
  digest : D
  expiration : LogicalTime
  numTxns : ℕ
  numBytes : ℕ
  deriving DecidableEq

structure ProofOfStore (D S : Type) where
  info : SignedDigestInfo D
  multiSignature : S
  deriving DecidableEq

namespace ProofOfStore
variable {D S : Type}

def digest (proof : ProofOfStore D S) : D := proof.info.digest

def expiration (proof : ProofOfStore D S) : LogicalTime := proof.info.expiration

end ProofOfStore

/-- How a call can stop the node. -/
inductive Panic
  | missingEntry
  | overflow
  | underflow
  | notInCache
  | noQuotaManager
  | storageLimit
  | assertion
  deriving DecidableEq

/-- Sums of `u64` are checked. -/
def checkedAdd (a b : ℕ) : Except Panic ℕ :=
  if a + b < 2 ^ 64 then .ok (a + b) else .error .overflow

section Sums
variable {α β : Type} {x : Except Panic α} {f : α → Except Panic β}

theorem bind_eq_ok {b : β} : x >>= f = .ok b ↔ ∃ a, x = .ok a ∧ f a = .ok b := by
  cases x <;> simp [bind, Except.bind]

theorem bind_eq_error {panic : Panic} :
    x >>= f = .error panic ↔ x = .error panic ∨ ∃ a, x = .ok a ∧ f a = .error panic := by
  cases x <;> simp [bind, Except.bind]

theorem checkedAdd_eq_ok {a b c : ℕ} : checkedAdd a b = .ok c ↔ a + b < 2 ^ 64 ∧ a + b = c := by
  unfold checkedAdd
  split
  next h => exact ⟨fun heq => ⟨h, Except.ok.inj heq⟩, fun heq => congrArg _ heq.2⟩
  next h => exact ⟨fun heq => (by cases heq), fun heq => absurd heq.1 h⟩

theorem checkedAdd_eq_error {a b : ℕ} {panic : Panic} :
    checkedAdd a b = .error panic ↔ 2 ^ 64 ≤ a + b ∧ panic = .overflow := by
  unfold checkedAdd
  split
  next h => exact ⟨fun heq => (by cases heq), fun heq => absurd h (Nat.not_lt.mpr heq.1)⟩
  next h =>
    exact ⟨fun heq => ⟨Nat.not_lt.mp h, (Except.error.inj heq).symm⟩,
      fun heq => congrArg _ heq.2.symm⟩

end Sums

/-- In the map a digest without a proof is committed. -/
structure ProofQueue (D S : Type) where
  digestQueue : List (D × LogicalTime)
  localDigestQueue : List (D × LogicalTime)
  digestProof : D → Option (Option (ProofOfStore D S))

namespace ProofQueue
variable {D S : Type} [DecidableEq D]

def new : ProofQueue D S where
  digestQueue := []
  localDigestQueue := []
  digestProof := fun _ => none

/-- A later expiration replaces the proof, and the entry of the queue stays. -/
def enqueue (q : ProofQueue D S) (proof : ProofOfStore D S) : ProofQueue D S :=
  match q.digestProof proof.digest with
  | none =>
    { q with
      digestQueue := q.digestQueue ++ [(proof.digest, proof.expiration)]
      digestProof := Function.update q.digestProof proof.digest (some (some proof)) }
  | some (some old) =>
    if old.expiration < proof.expiration then
      { q with digestProof := Function.update q.digestProof proof.digest (some (some proof)) }
    else q
  | some none => q

def push (q : ProofQueue D S) (proof : ProofOfStore D S) (isLocal : Bool) : ProofQueue D S :=
  let q := q.enqueue proof
  if isLocal then
    { q with localDigestQueue := q.localDigestQueue ++ [(proof.digest, proof.expiration)] }
  else q

/-- The map without the digests of the expired entries. -/
def drain : List (D × LogicalTime) → (D → Option (Option (ProofOfStore D S))) →
    Except Panic (D → Option (Option (ProofOfStore D S)))
  | [], digestProof => .ok digestProof
  | (digest, _) :: rest, digestProof =>
    match digestProof digest with
    | none => .error .missingEntry
    | some _ => drain rest (Function.update digestProof digest none)

/-- The proofs of the entries, up to the first one that exceeds a limit. -/
def collect (digestProof : D → Option (Option (ProofOfStore D S))) (excluded : List D)
    (now : LogicalTime) (maxTxns maxBytes : ℕ) :
    List (D × LogicalTime) → ℕ → ℕ → Except Panic (List (ProofOfStore D S))
  | [], _, _ => .ok []
  | (digest, expiration) :: rest, txns, bytes =>
    if now ≤ expiration ∧ digest ∉ excluded then
      match digestProof digest with
      | none => .error .missingEntry
      | some none => collect digestProof excluded now maxTxns maxBytes rest txns bytes
      | some (some proof) => do
        let bytes ← checkedAdd bytes proof.info.numBytes
        let txns ← checkedAdd txns proof.info.numTxns
        if maxBytes < bytes ∨ maxTxns < txns then pure []
        else
          let ret ← collect digestProof excluded now maxTxns maxBytes rest txns bytes
          pure (proof :: ret)
    else collect digestProof excluded now maxTxns maxBytes rest txns bytes

def pullProofs (q : ProofQueue D S) (excluded : List D) (now : LogicalTime)
    (maxTxns maxBytes : ℕ) : Except Panic (ProofQueue D S × List (ProofOfStore D S)) := do
  let digestProof ← drain (q.digestQueue.takeWhile (·.2 < now)) q.digestProof
  let digestQueue := q.digestQueue.dropWhile (·.2 < now)
  let ret ← collect digestProof excluded now maxTxns maxBytes digestQueue 0 0
  pure ({ q with digestQueue := digestQueue, digestProof := digestProof }, ret)

/-- The number of local proofs that have neither expired nor been committed is returned too. -/
def cleanLocalProofs (q : ProofQueue D S) (now : LogicalTime) : ProofQueue D S × ℕ :=
  let queue := q.localDigestQueue.dropWhile (·.2 < now)
  ({ q with localDigestQueue := queue },
    queue.countP fun entry => now ≤ entry.2 ∧ ((q.digestProof entry.1).join).isSome)

def markCommitted (q : ProofQueue D S) (digests : List D) : ProofQueue D S :=
  { q with
    digestProof := digests.foldl (fun m digest => Function.update m digest (some none))
      q.digestProof }

end ProofQueue

inductive QueueCall (D S : Type)
  | push (proof : ProofOfStore D S) (isLocal : Bool)
  | markCommitted (digests : List D)
  | pullProofs (excluded : List D) (now : LogicalTime) (maxTxns maxBytes : ℕ)
  | cleanLocalProofs (now : LogicalTime)

def ProofQueue.perform {D S : Type} [DecidableEq D] (q : ProofQueue D S) :
    QueueCall D S → Except Panic (ProofQueue D S)
  | .push proof isLocal => .ok (q.push proof isLocal)
  | .markCommitted digests => .ok (q.markCommitted digests)
  | .pullProofs excluded now maxTxns maxBytes =>
    (q.pullProofs excluded now maxTxns maxBytes).map Prod.fst
  | .cleanLocalProofs now => .ok (q.cleanLocalProofs now).1

namespace ProofQueue
variable {D S : Type} [DecidableEq D] {q q' : ProofQueue D S}

/-! ## The calls -/

/-- A push adds an entry for a digest that is not known, replaces the proof of one that is not
committed, or changes nothing. -/
theorem push_cases (q : ProofQueue D S) (proof : ProofOfStore D S) (isLocal : Bool) :
    (q.digestProof proof.digest = none ∧
      (q.push proof isLocal).digestQueue =
        q.digestQueue ++ [(proof.digest, proof.expiration)] ∧
      (q.push proof isLocal).digestProof =
        Function.update q.digestProof proof.digest (some (some proof))) ∨
    (∃ old, q.digestProof proof.digest = some (some old) ∧ old.expiration < proof.expiration ∧
      (q.push proof isLocal).digestQueue = q.digestQueue ∧
      (q.push proof isLocal).digestProof =
        Function.update q.digestProof proof.digest (some (some proof))) ∨
    (q.digestProof proof.digest ≠ none ∧
      (q.push proof isLocal).digestQueue = q.digestQueue ∧
      (q.push proof isLocal).digestProof = q.digestProof) := by
  have hqueue : (q.push proof isLocal).digestQueue = (q.enqueue proof).digestQueue := by
    cases isLocal <;> rfl
  have hmap : (q.push proof isLocal).digestProof = (q.enqueue proof).digestProof := by
    cases isLocal <;> rfl
  rw [hqueue, hmap]
  rcases hproof : q.digestProof proof.digest with _ | _ | old
  · simp [enqueue, hproof]
  · simp [enqueue, hproof]
  · by_cases hlt : old.expiration < proof.expiration
    · simp [enqueue, hproof, hlt]
    · simp [enqueue, hproof, hlt]

theorem mem_of_mem_push {proof : ProofOfStore D S} {isLocal : Bool} {entry : D × LogicalTime}
    (h : entry ∈ (q.push proof isLocal).digestQueue) :
    entry ∈ q.digestQueue ∨
      q.digestProof proof.digest = none ∧ entry = (proof.digest, proof.expiration) := by
  obtain ⟨hnone, hqueue, -⟩ | ⟨old, -, -, hqueue, -⟩ | ⟨-, hqueue, -⟩ := q.push_cases proof isLocal
  · rw [hqueue] at h
    obtain h | h := List.mem_append.mp h
    · exact Or.inl h
    · exact Or.inr ⟨hnone, List.mem_singleton.mp h⟩
  · exact Or.inl (hqueue ▸ h)
  · exact Or.inl (hqueue ▸ h)

theorem push_digestProof (q : ProofQueue D S) (proof : ProofOfStore D S) (isLocal : Bool)
    (digest : D) :
    (q.push proof isLocal).digestProof digest = q.digestProof digest ∨
      digest = proof.digest ∧ q.digestProof digest ≠ some none ∧
        (q.push proof isLocal).digestProof digest = some (some proof) := by
  by_cases heq : digest = proof.digest
  · subst heq
    obtain ⟨hnone, -, hmap⟩ | ⟨old, hold, -, -, hmap⟩ | ⟨-, -, hmap⟩ := q.push_cases proof isLocal
    · exact Or.inr ⟨rfl, by simp [hnone], by rw [hmap, Function.update_self]⟩
    · exact Or.inr ⟨rfl, by simp [hold], by rw [hmap, Function.update_self]⟩
    · exact Or.inl (by rw [hmap])
  · refine Or.inl ?_
    obtain ⟨-, -, hmap⟩ | ⟨old, -, -, -, hmap⟩ | ⟨-, -, hmap⟩ := q.push_cases proof isLocal
    · rw [hmap, Function.update_of_ne heq]
    · rw [hmap, Function.update_of_ne heq]
    · rw [hmap]

theorem push_ne_none (q : ProofQueue D S) (proof : ProofOfStore D S) (isLocal : Bool) :
    (q.push proof isLocal).digestProof proof.digest ≠ none := by
  obtain ⟨-, -, hmap⟩ | ⟨old, -, -, -, hmap⟩ | ⟨hsome, -, hmap⟩ := q.push_cases proof isLocal
  · simp [hmap]
  · simp [hmap]
  · rwa [hmap]

theorem markCommitted_digestProof (q : ProofQueue D S) (digests : List D) (digest : D) :
    (q.markCommitted digests).digestProof digest =
      if digest ∈ digests then some none else q.digestProof digest := by
  suffices h : ∀ m : D → Option (Option (ProofOfStore D S)),
      digests.foldl (fun m digest => Function.update m digest (some none)) m digest =
        if digest ∈ digests then some none else m digest from h q.digestProof
  induction digests with
  | nil => simp
  | cons head rest ih =>
    intro m
    rw [List.foldl_cons, ih]
    by_cases hrest : digest ∈ rest
    · simp [hrest]
    · by_cases hhead : digest = head
      · simp [hhead]
      · simp [hrest, hhead]

theorem drain_eq {entries : List (D × LogicalTime)}
    {digestProof : D → Option (Option (ProofOfStore D S))}
    (hnodup : (entries.map Prod.fst).Nodup)
    (hmapped : ∀ entry ∈ entries, digestProof entry.1 ≠ none) :
    drain entries digestProof =
      .ok fun digest => if digest ∈ entries.map Prod.fst then none else digestProof digest := by
  induction entries generalizing digestProof with
  | nil => simp [drain]
  | cons entry rest ih =>
    obtain ⟨digest, expiration⟩ := entry
    rw [List.map_cons, List.nodup_cons] at hnodup
    obtain ⟨value, hvalue⟩ := Option.ne_none_iff_exists'.mp (hmapped _ List.mem_cons_self)
    have hrest : ∀ entry ∈ rest, Function.update digestProof digest none entry.1 ≠ none := by
      intro entry hentry
      have hne : entry.1 ≠ digest := by
        intro heq
        have hin : entry.1 ∈ rest.map Prod.fst := List.mem_map_of_mem hentry
        exact hnodup.1 (heq ▸ hin)
      rw [Function.update_of_ne hne]
      exact hmapped entry (List.mem_cons_of_mem _ hentry)
    rw [drain, hvalue]
    dsimp only
    rw [ih hnodup.2 hrest]
    congr 1
    funext other
    by_cases hother : other = digest
    · simp [hother]
    · simp only [Function.update_of_ne hother, List.map_cons, List.mem_cons, hother, false_or]

/-- The proofs that a pull may return. -/
def pending (digestProof : D → Option (Option (ProofOfStore D S))) (excluded : List D)
    (now : LogicalTime) (entries : List (D × LogicalTime)) : List (ProofOfStore D S) :=
  entries.filterMap fun entry =>
    if now ≤ entry.2 ∧ entry.1 ∉ excluded then (digestProof entry.1).join else none

def totalTxns (proofs : List (ProofOfStore D S)) : ℕ := (proofs.map (·.info.numTxns)).sum

def totalBytes (proofs : List (ProofOfStore D S)) : ℕ := (proofs.map (·.info.numBytes)).sum

section Collect
variable {digestProof : D → Option (Option (ProofOfStore D S))} {excluded : List D}
  {now : LogicalTime} {maxTxns maxBytes : ℕ} {entries : List (D × LogicalTime)} {txns bytes : ℕ}

/-- The returned proofs are the first ones that a pull may return, within the limits. -/
theorem collect_ok {ret : List (ProofOfStore D S)} (htxns : txns ≤ maxTxns)
    (hbytes : bytes ≤ maxBytes)
    (hret : collect digestProof excluded now maxTxns maxBytes entries txns bytes = .ok ret) :
    txns + totalTxns ret ≤ maxTxns ∧ bytes + totalBytes ret ≤ maxBytes ∧
      ∃ rest, pending digestProof excluded now entries = ret ++ rest ∧
        (maxTxns = 2 ^ 64 - 1 → maxBytes = 2 ^ 64 - 1 → rest = []) := by
  induction entries generalizing txns bytes ret with
  | nil =>
    cases hret
    exact ⟨htxns, hbytes, [], rfl, fun _ _ => rfl⟩
  | cons entry rest ih =>
    obtain ⟨digest, expiration⟩ := entry
    unfold collect at hret
    unfold pending at ih ⊢
    rw [List.filterMap_cons]
    dsimp only
    split at hret
    next hin =>
      rw [if_pos hin]
      split at hret
      · cases hret
      next hproof =>
        rw [hproof]
        exact ih htxns hbytes hret
      next proof hproof =>
        rw [hproof]
        obtain ⟨bytes', hbytes', hret⟩ := bind_eq_ok.mp hret
        obtain ⟨txns', htxns', hret⟩ := bind_eq_ok.mp hret
        obtain ⟨hbytesFit, rfl⟩ := checkedAdd_eq_ok.mp hbytes'
        obtain ⟨htxnsFit, rfl⟩ := checkedAdd_eq_ok.mp htxns'
        split at hret
        next hover =>
          cases hret
          refine ⟨htxns, hbytes, _, rfl, fun ht hb => ?_⟩
          omega
        next hunder =>
          obtain ⟨tail, htail, hret⟩ := bind_eq_ok.mp hret
          cases hret
          obtain ⟨ht, hb, last, heq, hall⟩ := ih (by omega) (by omega) htail
          refine ⟨?_, ?_, last, ?_, hall⟩
          · rw [totalTxns, List.map_cons, List.sum_cons, ← add_assoc]
            exact ht
          · rw [totalBytes, List.map_cons, List.sum_cons, ← add_assoc]
            exact hb
          · simp [heq]
    next hout =>
      rw [if_neg hout]
      exact ih htxns hbytes hret

/-- Only a sum of sizes that does not fit can stop the selection. -/
theorem collect_error {panic : Panic} (hmapped : ∀ entry ∈ entries, digestProof entry.1 ≠ none)
    (herror : collect digestProof excluded now maxTxns maxBytes entries txns bytes =
      .error panic) :
    panic = .overflow ∧
      (2 ^ 64 ≤ txns + totalTxns (pending digestProof excluded now entries) ∨
        2 ^ 64 ≤ bytes + totalBytes (pending digestProof excluded now entries)) := by
  induction entries generalizing txns bytes with
  | nil => cases herror
  | cons entry rest ih =>
    obtain ⟨digest, expiration⟩ := entry
    rw [List.forall_mem_cons] at hmapped
    unfold collect at herror
    unfold pending at ih ⊢
    rw [List.filterMap_cons]
    dsimp only
    split at herror
    next hin =>
      rw [if_pos hin]
      split at herror
      next hproof => exact absurd hproof hmapped.1
      next hproof =>
        rw [hproof]
        exact ih hmapped.2 herror
      next proof hproof =>
        rw [hproof]
        simp only [Option.join_some, totalTxns, totalBytes, List.map_cons, List.sum_cons]
        simp only [totalTxns, totalBytes] at ih
        obtain herror | ⟨bytes', hbytes', herror⟩ := bind_eq_error.mp herror
        · obtain ⟨hover, rfl⟩ := checkedAdd_eq_error.mp herror
          exact ⟨rfl, Or.inr (by omega)⟩
        obtain ⟨-, rfl⟩ := checkedAdd_eq_ok.mp hbytes'
        obtain herror | ⟨txns', htxns', herror⟩ := bind_eq_error.mp herror
        · obtain ⟨hover, rfl⟩ := checkedAdd_eq_error.mp herror
          exact ⟨rfl, Or.inl (by omega)⟩
        obtain ⟨-, rfl⟩ := checkedAdd_eq_ok.mp htxns'
        split at herror
        · cases herror
        · obtain herror | ⟨tail, -, herror⟩ := bind_eq_error.mp herror
          · obtain ⟨rfl, hover⟩ := ih hmapped.2 herror
            exact ⟨rfl, by omega⟩
          · cases herror
    next hout =>
      rw [if_neg hout]
      exact ih hmapped.2 herror

end Collect

/-! ## The queue and the map -/

/-- What every call keeps. -/
structure Coherent (q : ProofQueue D S) : Prop where
  nodup : (q.digestQueue.map Prod.fst).Nodup
  mapped : ∀ entry ∈ q.digestQueue, q.digestProof entry.1 ≠ none
  queued : ∀ digest proof, q.digestProof digest = some (some proof) →
    proof.digest = digest ∧ ∃ expiration ≤ proof.expiration, (digest, expiration) ∈ q.digestQueue

/-- The entries that a pull at a time drops. -/
def expired (q : ProofQueue D S) (now : LogicalTime) : List (D × LogicalTime) :=
  q.digestQueue.takeWhile (·.2 < now)

/-- The queue after these are dropped. -/
def dropExpired (q : ProofQueue D S) (now : LogicalTime) : ProofQueue D S where
  digestQueue := q.digestQueue.dropWhile (·.2 < now)
  localDigestQueue := q.localDigestQueue
  digestProof := fun digest =>
    if digest ∈ (q.expired now).map Prod.fst then none else q.digestProof digest

section Pull
variable {excluded : List D} {now : LogicalTime} {maxTxns maxBytes : ℕ}

theorem expired_append (q : ProofQueue D S) (now : LogicalTime) :
    q.expired now ++ (q.dropExpired now).digestQueue = q.digestQueue :=
  List.takeWhile_append_dropWhile

omit [DecidableEq D] in
theorem lt_of_mem_expired {entry : D × LogicalTime} (h : entry ∈ q.expired now) :
    entry.2 < now := by
  have hlt := List.mem_takeWhile_imp h
  exact of_decide_eq_true hlt

theorem mem_of_mem_expired {entry : D × LogicalTime} (h : entry ∈ q.expired now) :
    entry ∈ q.digestQueue :=
  q.expired_append now ▸ List.mem_append_left _ h

theorem mem_of_mem_dropExpired {entry : D × LogicalTime}
    (h : entry ∈ (q.dropExpired now).digestQueue) : entry ∈ q.digestQueue :=
  q.expired_append now ▸ List.mem_append_right _ h

theorem dropExpired_digestProof_some {digest : D} {value : Option (ProofOfStore D S)}
    (h : (q.dropExpired now).digestProof digest = some value) :
    q.digestProof digest = some value := by
  change (if _ then none else q.digestProof digest) = _ at h
  split at h
  · cases h
  · exact h

theorem pullProofs_eq (h : q.Coherent) :
    q.pullProofs excluded now maxTxns maxBytes =
      (collect (q.dropExpired now).digestProof excluded now maxTxns maxBytes
        (q.dropExpired now).digestQueue 0 0).map fun ret => (q.dropExpired now, ret) := by
  have hnodup : ((q.expired now).map Prod.fst).Nodup := by
    have hsub := (List.takeWhile_sublist (l := q.digestQueue) fun entry => entry.2 < now).map
      Prod.fst
    exact h.nodup.sublist hsub
  have hdrain : drain (q.expired now) q.digestProof = .ok (q.dropExpired now).digestProof :=
    drain_eq hnodup fun entry hentry => h.mapped entry (mem_of_mem_expired hentry)
  unfold pullProofs
  change (drain (q.expired now) q.digestProof >>= _) = _
  rw [hdrain]
  change (collect _ _ _ _ _ (q.dropExpired now).digestQueue 0 0 >>= _) = _
  cases collect (q.dropExpired now).digestProof excluded now maxTxns maxBytes
    (q.dropExpired now).digestQueue 0 0 <;> rfl

theorem Coherent.notMem_expired (h : q.Coherent) {digest : D} {expiration : LogicalTime}
    (hin : (digest, expiration) ∈ (q.dropExpired now).digestQueue) :
    digest ∉ (q.expired now).map Prod.fst := by
  have hnodup := h.nodup
  rw [← q.expired_append now, List.map_append] at hnodup
  intro hexpired
  exact (List.nodup_append.mp hnodup).2.2 digest hexpired digest (List.mem_map_of_mem hin) rfl

theorem Coherent.dropExpired (h : q.Coherent) (now : LogicalTime) :
    (q.dropExpired now).Coherent where
  nodup := by
    have hsub := (List.dropWhile_sublist (l := q.digestQueue) fun entry => entry.2 < now).map
      Prod.fst
    exact h.nodup.sublist hsub
  mapped := by
    intro entry hentry
    change (if entry.1 ∈ _ then none else _) ≠ none
    rw [if_neg (h.notMem_expired hentry)]
    exact h.mapped entry (mem_of_mem_dropExpired hentry)
  queued := by
    intro digest proof hproof
    change (if digest ∈ _ then none else _) = _ at hproof
    split at hproof
    · cases hproof
    next hkept =>
      obtain ⟨hdigest, expiration, hle, hin⟩ := h.queued digest proof hproof
      refine ⟨hdigest, expiration, hle, ?_⟩
      rw [← q.expired_append now] at hin
      exact (List.mem_append.mp hin).resolve_left fun hexpired =>
        hkept (List.mem_map_of_mem hexpired)

/-- What a pull returns comes from entries of the queue that have not expired. -/
theorem Coherent.mem_pending (h : q.Coherent) {proof : ProofOfStore D S} :
    proof ∈ pending q.digestProof excluded now q.digestQueue ↔
      q.digestProof proof.digest = some (some proof) ∧ proof.digest ∉ excluded ∧
        ∃ expiration, now ≤ expiration ∧ (proof.digest, expiration) ∈ q.digestQueue := by
  unfold pending
  rw [List.mem_filterMap]
  constructor
  · rintro ⟨⟨digest, expiration⟩, hin, hproof⟩
    dsimp only at hproof
    split at hproof
    next hlive =>
      have hsome := Option.join_eq_some_iff.mp hproof
      obtain ⟨rfl, -⟩ := h.queued digest proof hsome
      exact ⟨hsome, hlive.2, expiration, hlive.1, hin⟩
    next => cases hproof
  · rintro ⟨hproof, hexcluded, expiration, hle, hin⟩
    exact ⟨_, hin, by simp [hle, hexcluded, hproof]⟩

theorem Coherent.nodup_pending (h : q.Coherent) (excluded : List D) (now : LogicalTime) :
    ((pending q.digestProof excluded now q.digestQueue).map ProofOfStore.digest).Nodup := by
  have hsub : ∀ entries : List (D × LogicalTime),
      ((pending q.digestProof excluded now entries).map ProofOfStore.digest).Sublist
        (entries.map Prod.fst) := by
    intro entries
    induction entries with
    | nil => exact List.Sublist.refl _
    | cons entry rest ih =>
      unfold pending at ih ⊢
      rw [List.filterMap_cons, List.map_cons]
      split
      next => exact ih.cons _
      next proof hproof =>
        split at hproof
        · obtain ⟨hdigest, -⟩ := h.queued _ _ (Option.join_eq_some_iff.mp hproof)
          rw [List.map_cons, hdigest]
          exact ih.cons_cons _
        · cases hproof
  exact h.nodup.sublist (hsub q.digestQueue)

theorem Coherent.pull_ok (h : q.Coherent) {ret : List (ProofOfStore D S)}
    (hpull : q.pullProofs excluded now maxTxns maxBytes = .ok (q', ret)) :
    q' = q.dropExpired now ∧ totalTxns ret ≤ maxTxns ∧ totalBytes ret ≤ maxBytes ∧
      ∃ rest, pending q'.digestProof excluded now q'.digestQueue = ret ++ rest ∧
        (maxTxns = 2 ^ 64 - 1 → maxBytes = 2 ^ 64 - 1 → rest = []) := by
  rw [pullProofs_eq h] at hpull
  rcases hret : collect (q.dropExpired now).digestProof excluded now maxTxns maxBytes
    (q.dropExpired now).digestQueue 0 0 with panic | found
  · rw [hret] at hpull
    cases hpull
  · rw [hret] at hpull
    cases hpull
    have hfound := collect_ok (Nat.zero_le _) (Nat.zero_le _) hret
    simp only [Nat.zero_add] at hfound
    exact ⟨rfl, hfound⟩

theorem Coherent.pull_error (h : q.Coherent) {panic : Panic}
    (hpull : q.pullProofs excluded now maxTxns maxBytes = .error panic) :
    panic = .overflow ∧
      let proofs := pending (q.dropExpired now).digestProof excluded now
        (q.dropExpired now).digestQueue
      (2 ^ 64 ≤ totalTxns proofs ∨ 2 ^ 64 ≤ totalBytes proofs) := by
  rw [pullProofs_eq h] at hpull
  rcases hret : collect (q.dropExpired now).digestProof excluded now maxTxns maxBytes
    (q.dropExpired now).digestQueue 0 0 with panic' | found
  · rw [hret] at hpull
    cases hpull
    have hover := collect_error (h.dropExpired now).mapped hret
    simp only [Nat.zero_add] at hover
    exact hover
  · rw [hret] at hpull
    cases hpull

end Pull

omit [DecidableEq D] in
theorem Coherent.new : (new : ProofQueue D S).Coherent where
  nodup := List.nodup_nil
  mapped := fun _ hentry => by cases hentry
  queued := fun _ _ hproof => by cases hproof

theorem mapped_update {proof : ProofOfStore D S} {queue : List (D × LogicalTime)}
    (h : ∀ entry ∈ queue, entry.1 ≠ proof.digest → q.digestProof entry.1 ≠ none) :
    ∀ entry ∈ queue,
      Function.update q.digestProof proof.digest (some (some proof)) entry.1 ≠ none := by
  intro entry hentry
  by_cases heq : entry.1 = proof.digest
  · rw [heq, Function.update_self]
    exact Option.some_ne_none _
  · rw [Function.update_of_ne heq]
    exact h entry hentry heq

theorem Coherent.push (h : q.Coherent) (proof : ProofOfStore D S) (isLocal : Bool) :
    (q.push proof isLocal).Coherent := by
  obtain ⟨hnone, hqueue, hmap⟩ | ⟨old, hold, hlt, hqueue, hmap⟩ | ⟨-, hqueue, hmap⟩ :=
    q.push_cases proof isLocal
  · have hfresh : proof.digest ∉ q.digestQueue.map Prod.fst := by
      rw [List.mem_map]
      rintro ⟨entry, hentry, heq⟩
      exact h.mapped entry hentry (heq ▸ hnone)
    refine ⟨?_, ?_, ?_⟩
    · rw [hqueue, List.map_append, List.map_singleton, ← List.concat_eq_append]
      exact List.Nodup.concat hfresh h.nodup
    · rw [hqueue, hmap]
      refine mapped_update fun entry hentry hne => h.mapped entry ?_
      refine (List.mem_append.mp hentry).resolve_right fun hlast => hne ?_
      rw [List.mem_singleton.mp hlast]
    · rw [hqueue, hmap]
      intro digest found hfound
      rw [Function.update_apply] at hfound
      split_ifs at hfound with heq
      · cases hfound
        exact ⟨heq.symm, _, le_rfl, List.mem_append_right _ (by rw [heq]; simp)⟩
      · obtain ⟨hdigest, expiration, hle, hin⟩ := h.queued digest found hfound
        exact ⟨hdigest, expiration, hle, List.mem_append_left _ hin⟩
  · refine ⟨by rw [hqueue]; exact h.nodup, ?_, ?_⟩
    · rw [hqueue, hmap]
      exact mapped_update fun entry hentry _ => h.mapped entry hentry
    · rw [hqueue, hmap]
      intro digest found hfound
      rw [Function.update_apply] at hfound
      split_ifs at hfound with heq
      · cases hfound
        obtain ⟨-, expiration, hle, hin⟩ := h.queued _ old hold
        exact ⟨heq.symm, expiration, hle.trans hlt.le, heq ▸ hin⟩
      · exact h.queued digest found hfound
  · exact ⟨by rw [hqueue]; exact h.nodup, by rw [hqueue, hmap]; exact h.mapped,
      by rw [hqueue, hmap]; exact h.queued⟩

theorem Coherent.markCommitted (h : q.Coherent) (digests : List D) :
    (q.markCommitted digests).Coherent where
  nodup := h.nodup
  mapped := by
    intro entry hentry
    rw [markCommitted_digestProof]
    split
    · exact Option.some_ne_none _
    · exact h.mapped entry hentry
  queued := by
    intro digest proof hproof
    rw [markCommitted_digestProof] at hproof
    split at hproof
    · cases hproof
    · exact h.queued digest proof hproof

/-- What a call does, up to the local queue. -/
inductive Performs (q : ProofQueue D S) : QueueCall D S → ProofQueue D S → Prop
  | push (proof : ProofOfStore D S) (isLocal : Bool) :
    Performs q (.push proof isLocal) (q.push proof isLocal)
  | markCommitted (digests : List D) :
    Performs q (.markCommitted digests) (q.markCommitted digests)
  | pullProofs (excluded : List D) (now : LogicalTime) (maxTxns maxBytes : ℕ) :
    Performs q (.pullProofs excluded now maxTxns maxBytes) (q.dropExpired now)
  | cleanLocalProofs (now : LogicalTime) (queue : List (D × LogicalTime)) :
    Performs q (.cleanLocalProofs now) { q with localDigestQueue := queue }

theorem Coherent.performs (h : q.Coherent) {call : QueueCall D S}
    (hcall : q.perform call = .ok q') : q.Performs call q' := by
  cases call with
  | push proof isLocal =>
    cases hcall
    exact .push proof isLocal
  | markCommitted digests =>
    cases hcall
    exact .markCommitted digests
  | pullProofs excluded now maxTxns maxBytes =>
    rcases hpull : q.pullProofs excluded now maxTxns maxBytes with panic | ⟨next, ret⟩
    · rw [perform, hpull] at hcall
      cases hcall
    · rw [perform, hpull] at hcall
      cases hcall
      rw [(h.pull_ok hpull).1]
      exact .pullProofs excluded now maxTxns maxBytes
  | cleanLocalProofs now =>
    cases hcall
    exact .cleanLocalProofs now _

theorem Coherent.after (h : q.Coherent) {call : QueueCall D S} (hcall : q.Performs call q') :
    q'.Coherent := by
  cases hcall with
  | push proof isLocal => exact h.push proof isLocal
  | markCommitted digests => exact h.markCommitted digests
  | pullProofs excluded now maxTxns maxBytes => exact h.dropExpired now
  | cleanLocalProofs now queue => exact ⟨h.nodup, h.mapped, h.queued⟩

end ProofQueue

end Anthemius.QuorumStore

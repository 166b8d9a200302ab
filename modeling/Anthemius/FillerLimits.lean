import Anthemius.FillerPathCosts
import Mathlib.Algebra.Order.BigOperators.Group.List

/-! The limits of a block. The number of its transactions stays within the limit, and so does
the sum of the gas estimates; but an estimate keeps only sixteen bits of the gas. The bytes of
the transactions are compared with their limit one by one in one filler and not at all in the
other. -/
namespace Anthemius
open CheckedLoops LittleEndianBytes

variable {T : Type}

namespace DependencyFiller

/-- What a filler made with these limits keeps to, whatever it is offered. -/
structure Limits (gasPerCore maxTxns cores : ℕ) (candidates : Set (Candidate T))
    (f : DependencyFiller T) : Prop where
  maxTxns_eq : f.maxTxns = maxTxns
  maxGas_eq : f.totalMaxGas = gasPerCore * cores
  block_eq : f.block = f.accepted.map fun p => p.1.tx
  gas_eq : f.estimatedGas = f.accepted.map fun p => p.1.gasUsed
  total_eq : f.totalEstimatedGas = f.estimatedGas.sum
  total_le : f.totalEstimatedGas ≤ f.totalMaxGas
  length_le : f.accepted.length ≤ max maxTxns 1
  room : f.full = false → f.accepted.length < max maxTxns 1
  offered : ∀ p ∈ f.accepted, p.1 ∈ candidates

variable {gasPerCore maxTxns cores : ℕ} {candidates : Set (Candidate T)} {f : DependencyFiller T}

theorem Limits.new (h : new gasPerCore maxTxns cores = some f) :
    f.Limits gasPerCore maxTxns cores candidates := by
  obtain rfl := eq_of_new h
  refine ⟨rfl, rfl, rfl, rfl, rfl, Nat.zero_le _, Nat.zero_le _, fun _ => ?_, nofun⟩
  exact Nat.lt_of_lt_of_le Nat.one_pos (le_max_right _ _)

theorem Limits.block_length (h : f.Limits gasPerCore maxTxns cores candidates) :
    f.block.length = f.accepted.length := by
  rw [h.block_eq, List.length_map]

theorem Limits.step {goodBlock : Bool} {c : Candidate T} {s s' : Fill T}
    (h : s.filler.Limits gasPerCore maxTxns cores candidates) (hc : c ∈ candidates)
    (hstep : Fill.Step goodBlock c s s') :
    s'.filler.Limits gasPerCore maxTxns cores candidates := by
  cases hstep with
  | full | user | skip => exact h
  | exceeds => exact { h with room := nofun }
  | accept scan hfull _ _ _ hgas =>
    have hroom := h.room hfull
    constructor
    case maxTxns_eq => exact h.maxTxns_eq
    case maxGas_eq => exact h.maxGas_eq
    case block_eq => simp [Fill.accept, h.block_eq]
    case gas_eq => simp [Fill.accept, h.gas_eq]
    case total_eq => simp [Fill.accept, h.total_eq]
    case total_le => exact hgas
    case length_le =>
      rw [Fill.accept_length]
      exact hroom
    case room =>
      intro hnot
      have hlt : s.filler.accepted.length + 1 < maxTxns := by
        simpa [Fill.accept, hfull, h.block_length, h.maxTxns_eq] using hnot
      rw [Fill.accept_length]
      exact hlt.trans_le (le_max_left _ _)
    case offered =>
      intro p hp
      rcases List.mem_append.mp hp with hp | hp
      · exact h.offered p hp
      · rwa [List.mem_singleton.mp hp]

end DependencyFiller

namespace FillerState
variable {gasPerCore maxTxns cores : ℕ} {candidates : Set (Candidate T)} {s s' : FillerState T}

theorem call_limits {c : FillerCall T} (h : s.call c = some s')
    (hc : ∀ x ∈ c.offered, x ∈ candidates)
    (hs : s.1.Limits gasPerCore maxTxns cores candidates) :
    s'.1.Limits gasPerCore maxTxns cores candidates :=
  call_keeps (I := fun f _ => f.Limits gasPerCore maxTxns cores candidates) h hs
    (fun _ x hx _ _ ht hstep => ht.step (hc x hx) hstep) fun _ _ _ ht => { ht with }

/-- A state of a new filler with an empty map, after calls that offer these transactions. -/
def FreshRun (gasPerCore maxTxns cores : ℕ) (candidates : Set (Candidate T))
    (s : FillerState T) : Prop :=
  ∃ f calls, DependencyFiller.new gasPerCore maxTxns cores = some f ∧
    (∀ call ∈ calls, ∀ c ∈ FillerCall.offered call, c ∈ candidates) ∧
    FillerState.run (f, fun _ => none) calls = some s

theorem FreshRun.of_batch {batch : List (Candidate T)} (hbatch : ∀ c ∈ batch, c ∈ candidates)
    {p : FillerState T → Prop} [DecidablePred p]
    (h : ((DependencyFiller.new gasPerCore maxTxns cores).bind fun f =>
      run (f, fun _ => none) [.addAll batch ∅ true]).any (fun s => decide (p s)) = true) :
    ∃ s, FreshRun gasPerCore maxTxns cores candidates s ∧ p s := by
  obtain ⟨s, hs, hp⟩ := (Option.any_eq_true _ _).mp h
  obtain ⟨f, hnew, hrun⟩ := Option.bind_eq_some_iff.mp hs
  refine ⟨s, ⟨f, _, hnew, fun call hcall => ?_, hrun⟩, of_decide_eq_true hp⟩
  cases List.mem_singleton.mp hcall
  exact hbatch

theorem FreshRun.limits (h : FreshRun gasPerCore maxTxns cores candidates s) :
    s.1.Limits gasPerCore maxTxns cores candidates := by
  obtain ⟨f, calls, hnew, hcalls, hrun⟩ := h
  exact foldlM_keeps (I := fun s : FillerState T => s.1.Limits gasPerCore maxTxns cores candidates)
    (.new hnew) (fun call hcall t t' ht hstep => call_limits hstep (hcalls call hcall) ht) hrun

/-- Offered one by one, and with gas enough, transactions are accepted as long as there is
room. -/
theorem freshRun_list (cs : List (Candidate T)) (hcs : ∀ c ∈ cs, c ∈ candidates)
    (hmax : maxTxns ≤ 2 ^ 16) (hlen : cs.length ≤ max maxTxns 1) :
    ∃ s : FillerState T, FreshRun (2 ^ 40) maxTxns 1 candidates s ∧
      s.1.accepted.map Prod.fst = cs := by
  let start : DependencyFiller T := ⟨2 ^ 40, 2 ^ 40, maxTxns, 1, 0, false, [], [], [], []⟩
  have hnew : DependencyFiller.new (2 ^ 40) maxTxns 1 = some start := rfl
  let calls := cs.map fun c => FillerCall.addAll [c] ∅ false
  suffices h : ∃ s, FillerState.run (start, fun _ => none) calls = some s ∧ s.1.Tracks s.2 ∧
      s.1.accepted.map Prod.fst = cs ∧ s.1.cores = 1 ∧ s.1.totalMaxGas = 2 ^ 40 ∧
      s.1.maxTxns = maxTxns ∧ (cs.length < max maxTxns 1 → s.1.full = false) by
    obtain ⟨s, hrun, -, hs, -⟩ := h
    refine ⟨s, ⟨start, calls, hnew, fun call hcall x hx => ?_, hrun⟩, hs⟩
    obtain ⟨c, hc, rfl⟩ := List.mem_map.mp hcall
    cases List.mem_singleton.mp hx
    exact hcs x hc
  clear hcs
  induction cs using List.reverseRecOn with
  | nil => exact ⟨(start, fun _ => none), rfl, .new hnew hmax, rfl, rfl, rfl, rfl, fun _ => rfl⟩
  | append_singleton cs c ih =>
    rw [List.length_append, List.length_singleton] at hlen
    obtain ⟨s, hrun, ht, hs, hcores, hgas, hmaxTxns, hroom⟩ := ih (by omega)
    have hfull : s.1.full = false := hroom hlen
    have hlength : s.1.accepted.length = cs.length := by rw [← hs, List.length_map]
    have htotal := ht.total_le
    have hle := ht.length_le
    have hused := c.gasUsed_lt
    obtain ⟨scan, hscan, hstep⟩ := Fill.step_accepts (s := ⟨s.1, s.2, ∅, [], 0⟩) (c := c) hfull
      (by rw [hcores]; exact Nat.one_ne_zero)
      (fun k t i hki => by
        obtain ⟨hi, rfl⟩ := ht.stored k t i hki
        exact ht.finishTime_le hi)
      (by dsimp only; omega) (by dsimp only; omega)
    have htracks := Fill.accept_tracks (s := ⟨s.1, s.2, ∅, [], 0⟩) ht hfull hscan
    refine ⟨(_, _), ?_, htracks, ?_, hcores, hgas, hmaxTxns, fun hlt => ?_⟩
    · have hcalls : calls =
          (cs.map fun c => FillerCall.addAll [c] ∅ false) ++ [.addAll [c] ∅ false] :=
        List.map_append
      rw [hcalls, FillerState.run, foldlM_concat]
      refine (congrArg (fun r => Option.bind r _) hrun).trans ?_
      simp only [Option.bind_some, FillerState.call, DependencyFiller.addAll, List.foldlM_cons,
        hstep, List.foldlM_nil]
      rfl
    · simp [Fill.accept, hs]
    · have hcount : s.1.block.length = cs.length := ht.block_length.trans hlength
      rw [List.length_append, List.length_singleton] at hlt
      simp only [Fill.accept, hfull, hcount, hmaxTxns, Bool.false_or, decide_eq_false_iff_not]
      omega

/-- The number of transactions and the sum of the estimates are within their limits in every
run. The estimates are the tenth of the gas, and their limit one for the gas, in all runs over
a set of transactions if and only if the tenth of each transaction's gas fits into sixteen
bits. -/
theorem gasLimit_iff (candidates : Set (Candidate T)) :
    (∀ gasPerCore maxTxns cores s, 1 ≤ maxTxns → FreshRun gasPerCore maxTxns cores candidates s →
      s.1.block = s.1.accepted.map (fun p => p.1.tx) ∧ s.1.block.length ≤ maxTxns ∧
      s.1.estimatedGas.sum ≤ gasPerCore * cores) ∧
    ((∀ gasPerCore maxTxns cores s, 1 ≤ maxTxns → FreshRun gasPerCore maxTxns cores candidates s →
      s.1.block.length ≤ maxTxns ∧
      (s.1.accepted.map fun p => p.1.gas.toNat / 10).sum ≤ gasPerCore * cores ∧
      s.1.estimatedGas = s.1.accepted.map fun p => p.1.gas.toNat / 10) ↔
      ∀ c ∈ candidates, c.gas.toNat < 655360) := by
  have hcount : ∀ gasPerCore maxTxns cores s, 1 ≤ maxTxns →
      FreshRun gasPerCore maxTxns cores candidates s → s.1.block.length ≤ maxTxns ∧
        s.1.estimatedGas.sum ≤ gasPerCore * cores := by
    intro gasPerCore maxTxns cores s hmax hs
    have h := hs.limits
    rw [h.block_length, ← h.total_eq, ← h.maxGas_eq]
    exact ⟨h.length_le.trans_eq (max_eq_left hmax), h.total_le⟩
  refine ⟨fun g m k s hm hs => ⟨hs.limits.block_eq, hcount g m k s hm hs⟩, ?_, ?_⟩
  · intro hall c hc
    -- a run that accepts the transaction
    have hlen : [c].length ≤ max 1 1 := le_rfl
    obtain ⟨s, hs, haccepted⟩ := freshRun_list [c] (by simpa using hc) (by decide) hlen
    obtain ⟨-, -, hgas⟩ := hall _ _ _ s le_rfl hs
    rw [hs.limits.gas_eq] at hgas
    have hmap : (s.1.accepted.map Prod.fst).map Candidate.gasUsed =
        (s.1.accepted.map Prod.fst).map fun c => c.gas.toNat / 10 := by
      simpa using hgas
    rw [haccepted] at hmap
    have hused : c.gasUsed = c.gas.toNat / 10 := (List.cons.inj hmap).1
    have hlt := c.gasUsed_lt
    omega
  · intro hsmall gasPerCore maxTxns cores s hmax hs
    have hgas : s.1.estimatedGas = s.1.accepted.map fun p => p.1.gas.toNat / 10 := by
      rw [hs.limits.gas_eq]
      refine List.map_congr_left fun p hp => Nat.mod_eq_of_lt ?_
      have := hsmall p.1 (hs.limits.offered p hp)
      omega
    have h := hcount _ _ _ s hmax hs
    exact ⟨h.1, hgas ▸ h.2, hgas⟩

/-- A candidate whose gas is 655360 fits under any limit: its estimate is zero. -/
theorem gasLimit_fails : ∃ s, FreshRun 100 1 1 {.onBytes 1 0 [] [] 655360} s ∧
    s.1.accepted.map (fun p => p.1.gas.toNat / 10) = [65536] ∧ s.1.estimatedGas = [0] :=
  FreshRun.of_batch (fun _ => List.mem_singleton.mp) (by decide +kernel)

theorem gasLimit_oneCandidate : ∃ s, FreshRun (2 ^ 40) 1 1 {.onBytes 1 0 [] [] 655359} s ∧
    s.1.block.length = 1 ∧
    s.1.estimatedGas = s.1.accepted.map fun p => p.1.gas.toNat / 10 := by
  have hlen : [Candidate.onBytes 1 0 [] [] 655359].length ≤ max 1 1 := le_rfl
  obtain ⟨s, hs, haccepted⟩ :=
    freshRun_list _ (fun c hc => List.mem_singleton.mp hc) (by decide) hlen
  refine ⟨s, hs, ?_, ?_⟩
  · rw [hs.limits.block_length, ← List.length_map Prod.fst, haccepted]
    rfl
  · refine ((gasLimit_iff _).2.mpr ?_ _ _ _ s le_rfl hs).2.2
    rintro c rfl
    decide

end FillerState

/-! ## Bytes -/

/-- The bytes of the transactions of a block. -/
def blockBytes (rawTxnBytesLen : SignedTransaction T → ℕ)
    (block : List (SignedTransaction T)) : ℕ :=
  (block.map rawTxnBytesLen).sum

structure SimpleFiller (T : Type) where
  maxBytes : ℕ
  maxTxns : ℕ
  currentBytes : ℕ
  full : Bool
  block : List (SignedTransaction T)

namespace SimpleFiller
variable (rawTxnBytesLen : SignedTransaction T → ℕ)

def new (maxBytes maxTxns : ℕ) : SimpleFiller T := ⟨maxBytes, maxTxns, 0, false, []⟩

/-- `none` is the overflow of the sum. -/
def add (f : SimpleFiller T) (txn : SignedTransaction T) : Option (SimpleFiller T × Bool) :=
  if f.full then some (f, false)
  else if f.currentBytes + rawTxnBytesLen txn ≥ 2 ^ 64 then none
  else if f.currentBytes + rawTxnBytesLen txn > f.maxBytes then
    some ({ f with full := true }, false)
  else
    let block := f.block ++ [txn]
    some ({ f with block := block, full := decide (block.length = f.maxTxns) }, true)

/-- One `add` after the other. -/
def addEach (f : SimpleFiller T) (txns : List (SignedTransaction T)) : Option (SimpleFiller T) :=
  txns.foldlM (fun f txn => (f.add rawTxnBytesLen txn).map Prod.fst) f

end SimpleFiller

/-- The dependency filler with its two fields for bytes. -/
structure SizedFiller (T : Type) extends DependencyFiller T where
  maxBytes : ℕ
  totalBytes : ℕ

/-- A filler with the map its caller keeps. -/
abbrev SizedState (T : Type) := SizedFiller T × LastTouched

namespace SizedFiller
variable (rawTxnBytesLen : SignedTransaction T → ℕ)

def new (gasPerCore maxBytes maxTxns cores : ℕ) : Option (SizedFiller T) :=
  (DependencyFiller.new gasPerCore maxTxns cores).map fun f => ⟨f, maxBytes, 0⟩

/-- Nothing is ever added here. -/
def add (f : SizedFiller T) (txn : SignedTransaction T) : Option (SizedFiller T × Bool) :=
  if f.full then some (f, false)
  else if f.totalBytes + rawTxnBytesLen txn ≥ 2 ^ 64 then none
  else if f.totalBytes + rawTxnBytesLen txn > f.maxBytes then some ({ f with full := true }, false)
  else some (f, false)

/-- The calls for the block, and those of `add`. -/
inductive Call (T : Type)
  | add (txn : SignedTransaction T)
  | fill (call : FillerCall T)

def Call.offered : Call T → List (Candidate T)
  | .add _ => []
  | .fill call => call.offered

def call (s : SizedState T) : Call T → Option (SizedState T)
  | .add txn => (s.1.add rawTxnBytesLen txn).map fun r => (r.1, s.2)
  | .fill c => (FillerState.call (s.1.toDependencyFiller, s.2) c).map fun r =>
      ({ s.1 with toDependencyFiller := r.1 }, r.2)

/-- A state of a new filler with an empty map, after calls that offer these transactions for
the block. -/
def FreshRun (gasPerCore maxBytes maxTxns cores : ℕ) (candidates : Set (Candidate T))
    (s : SizedState T) : Prop :=
  ∃ f, ∃ calls : List (Call T), SizedFiller.new gasPerCore maxBytes maxTxns cores = some f ∧
    (∀ call ∈ calls, ∀ c ∈ call.offered, c ∈ candidates) ∧
    calls.foldlM (call rawTxnBytesLen) (f, fun _ => none) = some s

end SizedFiller

theorem blockBytes_le {rawTxnBytesLen : SignedTransaction T → ℕ}
    {block : List (SignedTransaction T)} {n limit : ℕ} (hlen : block.length ≤ n)
    (h : ∀ t ∈ block, n * rawTxnBytesLen t ≤ limit) :
    blockBytes rawTxnBytesLen block ≤ limit := by
  rcases Nat.eq_zero_or_pos n with rfl | hn
  · rw [List.eq_nil_of_length_eq_zero (Nat.le_zero.mp hlen)]
    exact Nat.zero_le _
  · have hsum := List.sum_le_card_nsmul (block.map rawTxnBytesLen) (limit / n) <| by
      intro x hx
      obtain ⟨t, ht, rfl⟩ := List.mem_map.mp hx
      rw [Nat.le_div_iff_mul_le hn, Nat.mul_comm]
      exact h t ht
    rw [List.length_map, nsmul_eq_mul] at hsum
    calc blockBytes rawTxnBytesLen block ≤ block.length * (limit / n) := hsum
      _ ≤ n * (limit / n) := Nat.mul_le_mul_right _ hlen
      _ ≤ limit := Nat.mul_div_le _ _

theorem blockBytes_replicate (rawTxnBytesLen : SignedTransaction T → ℕ) (n : ℕ)
    (t : SignedTransaction T) :
    blockBytes rawTxnBytesLen (List.replicate n t) = n * rawTxnBytesLen t := by
  simp [blockBytes]

namespace SimpleFiller
variable {rawTxnBytesLen : SignedTransaction T → ℕ} {maxBytes maxTxns : ℕ}
  {txns : List (SignedTransaction T)} {f : SimpleFiller T}

/-- The bytes are never counted, so every transaction is measured by itself. -/
structure Fills (rawTxnBytesLen : SignedTransaction T → ℕ) (maxBytes maxTxns : ℕ)
    (txns : List (SignedTransaction T)) (f : SimpleFiller T) : Prop where
  maxBytes_eq : f.maxBytes = maxBytes
  maxTxns_eq : f.maxTxns = maxTxns
  currentBytes_eq : f.currentBytes = 0
  fits : ∀ t ∈ f.block, t ∈ txns ∧ rawTxnBytesLen t ≤ maxBytes
  length_le : maxTxns ≠ 0 → f.block.length ≤ maxTxns
  room : maxTxns ≠ 0 → f.full = false → f.block.length < maxTxns

theorem addEach_fills
    (h : (new maxBytes maxTxns : SimpleFiller T).addEach rawTxnBytesLen txns = some f) :
    f.Fills rawTxnBytesLen maxBytes maxTxns txns := by
  have hstart : (new maxBytes maxTxns).Fills rawTxnBytesLen maxBytes maxTxns txns :=
    ⟨rfl, rfl, rfl, fun t ht => absurd ht List.not_mem_nil, fun _ => Nat.zero_le _,
      fun h _ => Nat.pos_of_ne_zero h⟩
  refine foldlM_keeps (I := Fills rawTxnBytesLen maxBytes maxTxns txns) hstart ?_ h
  intro txn htxn f f' hf hadd
  obtain ⟨⟨f'', added⟩, hadd, rfl⟩ := Option.map_eq_some_iff.mp hadd
  simp only [add] at hadd
  split at hadd
  · cases hadd
    exact hf
  rename_i hfull
  split at hadd
  · cases hadd
  split at hadd
  · cases hadd
    exact { hf with room := nofun }
  · rename_i hfits
    rw [hf.currentBytes_eq, hf.maxBytes_eq, Nat.zero_add, not_lt] at hfits
    cases hadd
    have hroom := fun hmax => hf.room hmax (Bool.eq_false_iff.mpr hfull)
    refine ⟨hf.maxBytes_eq, hf.maxTxns_eq, hf.currentBytes_eq, fun t ht => ?_, fun hmax => ?_,
      fun hmax hnot => ?_⟩
    · rcases List.mem_append.mp ht with ht | ht
      · exact hf.fits t ht
      · rw [List.mem_singleton.mp ht]
        exact ⟨htxn, hfits⟩
    · rw [List.length_append, List.length_singleton]
      exact hroom hmax
    · have hne : f.block.length + 1 ≠ maxTxns := by
        simpa [hf.maxTxns_eq] using hnot
      rw [List.length_append, List.length_singleton]
      exact Nat.lt_of_le_of_ne (hroom hmax) hne

/-- As many copies of a transaction that fits are accepted as there is room for. -/
theorem addEach_replicate {t : SignedTransaction T} (hfits : rawTxnBytesLen t ≤ maxBytes)
    (hbytes : maxBytes < 2 ^ 64) {n : ℕ} (hn : maxTxns ≠ 0 → n ≤ maxTxns) :
    ∃ full, (new maxBytes maxTxns).addEach rawTxnBytesLen (List.replicate n t) =
      some ⟨maxBytes, maxTxns, 0, full, List.replicate n t⟩ ∧
      (full = true → maxTxns ≠ 0 ∧ n = maxTxns) := by
  induction n with
  | zero => exact ⟨false, rfl, nofun⟩
  | succ n ih =>
    obtain ⟨full, hrun, hfull⟩ := ih fun h => Nat.le_of_succ_le (hn h)
    have hroom : full = false := by
      refine Bool.eq_false_iff.mpr fun h => ?_
      obtain ⟨hmax, rfl⟩ := hfull h
      exact Nat.not_succ_le_self n (hn hmax)
    refine ⟨decide (n + 1 = maxTxns), ?_, fun h => ?_⟩
    · have hsmall : ¬ 0 + rawTxnBytesLen t ≥ 2 ^ 64 := by omega
      have hle : ¬ 0 + rawTxnBytesLen t > maxBytes := by omega
      rw [List.replicate_succ', addEach, foldlM_concat]
      refine (congrArg (fun r => Option.bind r _) hrun).trans ?_
      simp only [Option.bind_some, add, hroom, Bool.false_eq_true, if_false, if_neg hsmall,
        if_neg hle, Option.map_some, List.length_append, List.length_replicate,
        List.length_singleton]
    · have := of_decide_eq_true h
      omega

end SimpleFiller

namespace SizedFiller
variable {rawTxnBytesLen : SignedTransaction T → ℕ} {gasPerCore maxBytes maxTxns cores : ℕ}
  {candidates : Set (Candidate T)} {s : SizedState T}

theorem FreshRun.limits
    (h : FreshRun rawTxnBytesLen gasPerCore maxBytes maxTxns cores candidates s) :
    s.1.Limits gasPerCore maxTxns cores candidates := by
  obtain ⟨f, calls, hnew, hcalls, hrun⟩ := h
  obtain ⟨f, hf, rfl⟩ := Option.map_eq_some_iff.mp hnew
  refine foldlM_keeps (I := fun s : SizedState T => s.1.Limits gasPerCore maxTxns cores candidates)
    (.new hf) (fun c hc t t' ht hcall => ?_) hrun
  cases c with
  | add txn =>
    obtain ⟨⟨f', added⟩, hadd, rfl⟩ := Option.map_eq_some_iff.mp hcall
    unfold add at hadd
    split at hadd
    · cases hadd
      exact ht
    split at hadd
    · cases hadd
    split at hadd
    · cases hadd
      exact { ht with room := nofun }
    · cases hadd
      exact ht
  | fill c =>
    obtain ⟨r, hr, rfl⟩ := Option.map_eq_some_iff.mp hcall
    exact FillerState.call_limits hr (hcalls _ hc) ht

theorem freshRun_of_freshRun {r : FillerState T}
    (h : FillerState.FreshRun gasPerCore maxTxns cores candidates r) :
    FreshRun rawTxnBytesLen gasPerCore maxBytes maxTxns cores candidates
      (⟨r.1, maxBytes, 0⟩, r.2) := by
  obtain ⟨f, calls, hnew, hcalls, hrun⟩ := h
  refine ⟨⟨f, maxBytes, 0⟩, calls.map .fill, by rw [SizedFiller.new, hnew]; rfl, ?_, ?_⟩
  · intro call hcall
    obtain ⟨c, hc, rfl⟩ := List.mem_map.mp hcall
    exact hcalls c hc
  · generalize (fun _ => none : LastTouched) = lastTouched at hrun ⊢
    clear hnew hcalls
    induction calls generalizing f lastTouched with
    | nil =>
      cases hrun
      rfl
    | cons c calls ih =>
      obtain ⟨t, ht, hrun⟩ := Option.bind_eq_some_iff.mp hrun
      rw [List.map_cons, List.foldlM_cons, call, ht]
      exact ih t.1 t.2 hrun

end SizedFiller

/-- The simple filler keeps the byte limit in all runs over a set of transactions if and only if
as many copies as a block may have of each that fits alone also fit; the dependency filler, if
and only if this holds for all transactions offered. -/
theorem byteLimit_iff (rawTxnBytesLen : SignedTransaction T → ℕ) {maxBytes : ℕ}
    (hbytes : maxBytes < 2 ^ 64) (maxTxns : ℕ) :
    (∀ transactions : Set (SignedTransaction T),
      (∀ txns f, (∀ t ∈ txns, t ∈ transactions) →
        (SimpleFiller.new maxBytes maxTxns).addEach rawTxnBytesLen txns = some f →
        blockBytes rawTxnBytesLen f.block ≤ maxBytes) ↔
      ∀ t ∈ transactions, rawTxnBytesLen t ≤ maxBytes →
        (maxTxns = 0 → rawTxnBytesLen t = 0) ∧ maxTxns * rawTxnBytesLen t ≤ maxBytes) ∧
    ∀ candidates : Set (Candidate T),
      ((∀ c ∈ candidates, max maxTxns 1 * rawTxnBytesLen c.tx ≤ maxBytes) →
        ∀ gasPerCore cores s,
          SizedFiller.FreshRun rawTxnBytesLen gasPerCore maxBytes maxTxns cores candidates s →
          blockBytes rawTxnBytesLen s.1.block ≤ maxBytes) ∧
      (maxTxns ≤ 2 ^ 16 →
        (∀ gasPerCore cores s,
          SizedFiller.FreshRun rawTxnBytesLen gasPerCore maxBytes maxTxns cores candidates s →
          blockBytes rawTxnBytesLen s.1.block ≤ maxBytes) →
        ∀ c ∈ candidates, max maxTxns 1 * rawTxnBytesLen c.tx ≤ maxBytes) := by
  refine ⟨fun transactions => ⟨fun hall t ht hfits => ?_, fun hsize txns f htxns hf => ?_⟩,
    fun candidates => ⟨fun hsize gasPerCore cores s hs => ?_, fun hmax hall c hc => ?_⟩⟩
  · have hcopies : ∀ n, (maxTxns ≠ 0 → n ≤ maxTxns) → n * rawTxnBytesLen t ≤ maxBytes := by
      intro n hn
      obtain ⟨full, hrun, -⟩ := SimpleFiller.addEach_replicate hfits hbytes hn
      have := hall _ _ (fun x hx => List.eq_of_mem_replicate hx ▸ ht) hrun
      rwa [blockBytes_replicate] at this
    refine ⟨fun hzero => ?_, hcopies maxTxns fun _ => le_rfl⟩
    -- without a limit on their number there may be one more than any limit on the bytes
    have hmany := hcopies (maxBytes + 1) fun h => absurd hzero h
    by_contra hpos
    have := Nat.le_mul_of_pos_right (maxBytes + 1) (Nat.pos_of_ne_zero hpos)
    omega
  · have h := SimpleFiller.addEach_fills hf
    have hblock := fun t ht => hsize t (htxns t (h.fits t ht).1) (h.fits t ht).2
    rcases Nat.eq_zero_or_pos maxTxns with hzero | hpos
    · refine blockBytes_le le_rfl fun t ht => ?_
      rw [(hblock t ht).1 hzero, Nat.mul_zero]
      exact Nat.zero_le _
    · exact blockBytes_le (h.length_le hpos.ne') fun t ht => (hblock t ht).2
  · have h := hs.limits
    refine blockBytes_le (h.block_length.trans_le h.length_le) fun t ht => ?_
    rw [h.block_eq] at ht
    obtain ⟨p, hp, rfl⟩ := List.mem_map.mp ht
    exact hsize p.1 (h.offered p hp)
  · have hlen : (List.replicate (max maxTxns 1) c).length ≤ max maxTxns 1 :=
      (List.length_replicate ..).le
    obtain ⟨s, hs, haccepted⟩ := FillerState.freshRun_list _
      (fun x hx => show x ∈ candidates from List.eq_of_mem_replicate hx ▸ hc) hmax hlen
    have hle := hall _ _ _ (SizedFiller.freshRun_of_freshRun hs)
    have hblock : s.1.block = List.replicate (max maxTxns 1) c.tx := by
      rw [hs.limits.block_eq, ← List.map_replicate, ← haccepted, List.map_map]
      rfl
    rwa [hblock, blockBytes_replicate] at hle

/-- Two transactions of 6 bytes in a block of 10, and one of 11 bytes. -/
theorem byteLimit_fails :
    (∃ f, (SimpleFiller.new 10 100).addEach (fun _ => 6) [⟨[], 0⟩, ⟨[], 1⟩] = some f ∧
      blockBytes (fun _ => 6) f.block = 12) ∧
    ∃ s, SizedFiller.FreshRun (fun _ => 11) 100 10 1 1 {.onBytes 1 0 [] [] 10} s ∧
      blockBytes (fun _ => 11) s.1.block = 11 := by
  refine ⟨⟨_, rfl, rfl⟩, ?_⟩
  obtain ⟨s, hs, hbytes⟩ : ∃ s, FillerState.FreshRun 100 1 1 {.onBytes 1 0 [] [] 10} s ∧
      blockBytes (fun _ => 11) s.1.block = 11 :=
    FillerState.FreshRun.of_batch (fun _ => List.mem_singleton.mp) (by decide +kernel)
  exact ⟨_, SizedFiller.freshRun_of_freshRun hs, hbytes⟩

theorem byteLimit_twoTransactions :
    ∃ f, (SimpleFiller.new 10 2).addEach (fun _ => 5) [⟨[], 0⟩, ⟨[], 1⟩] = some f ∧
      f.block.length = 2 ∧ blockBytes (fun _ => 5) f.block ≤ 10 := by
  refine ⟨⟨10, 2, 0, true, [⟨[], 0⟩, ⟨[], 1⟩]⟩, rfl, rfl, ?_⟩
  refine ((byteLimit_iff (fun _ => 5) (by decide) 2).1 Set.univ).mpr ?_ [⟨[], 0⟩, ⟨[], 1⟩] _
    (fun _ _ => trivial) rfl
  exact fun _ _ _ => ⟨fun h => absurd h (by decide), by decide⟩

end Anthemius

import Anthemius.CheckedLoops
import Anthemius.LittleEndianBytes
import Mathlib.Data.Finset.Lattice.Fold
import Mathlib.Data.List.Perm.Basic

/-!
# The dependency filler

A block is filled from batches of transactions whose reads, writes and gas are known from a
speculative execution. For each key the filler keeps the finish time and the block position
of one transaction that touched it; a new transaction arrives when the latest of the keys it
consults is finished. Sums are checked, casts to a narrower word are not: `none` is the panic
of an overflow or of a division by zero.
-/
namespace Anthemius
open LittleEndianBytes

inductive StateKey
  | accessPath (address path : Bytes)
  | tableItem (handle key : Bytes)
  | raw (bytes : Bytes)
  deriving DecidableEq

/-- The bytes under which a key is tracked; neither the account nor the table counts. -/
def StateKey.getRawRef : StateKey → Bytes
  | .accessPath _ path => path
  | .tableItem _ key => key
  | .raw bytes => bytes

structure SignedTransaction (T : Type) where
  sender : Bytes
  body : T
  deriving DecidableEq

/-- A transaction with the keys of its speculative write set, its read set and its gas. -/
structure Candidate (T : Type) where
  writeSet : List StateKey
  readSet : List StateKey
  gas : UInt32
  tx : SignedTransaction T

namespace Candidate
variable {T : Type} (c : Candidate T)

def sender : Bytes := c.tx.sender

/-- `(gas / 10) as u16`. -/
def gasUsed : ℕ := c.gas.toNat / 10 % 2 ^ 16

/-- The entries of `last_touched` that are looked up for the transaction. -/
def consulted : List Bytes := c.readSet.map StateKey.getRawRef ++ [c.sender]

/-- The entries of `last_touched` that the accepted transaction may overwrite. -/
def touched : List Bytes := c.writeSet.map StateKey.getRawRef ++ [c.sender]

theorem gasUsed_lt : c.gasUsed < 2 ^ 16 := Nat.mod_lt _ (by decide)

end Candidate

/-- For each key a finish time and the block position it belongs to. -/
abbrev LastTouched := Bytes → Option (ℕ × ℕ)

/-- The last field is not part of the source: the accepted transactions with their finish
times, which the source computes and does not keep. -/
structure DependencyFiller (T : Type) where
  gasPerCore : ℕ
  totalMaxGas : ℕ
  maxTxns : ℕ
  cores : ℕ
  totalEstimatedGas : ℕ
  full : Bool
  dependencyGraph : List (Finset ℕ)
  block : List (SignedTransaction T)
  estimatedGas : List ℕ
  accepted : List (Candidate T × ℕ)

/-- What the look-ups of one transaction have found so far. -/
structure Scan where
  arrivalTime : ℕ
  dependencies : Finset ℕ
  hotReadAccess : ℕ

namespace Scan

def start : Scan := ⟨0, ∅, 0⟩

/-- One look-up, which counts as hot when its time is beyond a limit. -/
def consult (lastTouched : LastTouched) (hot : ℕ → Bool) (scan : Scan) (key : Bytes) : Scan :=
  match lastTouched key with
  | none => scan
  | some (time, idx) =>
    { arrivalTime := max scan.arrivalTime time
      dependencies := insert idx scan.dependencies
      hotReadAccess := if hot time then scan.hotReadAccess + 1 else scan.hotReadAccess }

/-- The loop over the read set; `none` when it bails out at the fourth hot read. -/
def reads (lastTouched : LastTouched) (hot : ℕ → Bool) : List StateKey → Scan → Option Scan
  | [], scan => some scan
  | read :: rest, scan =>
    let scan := scan.consult lastTouched hot read.getRawRef
    if scan.hotReadAccess ≥ 4 then none else reads lastTouched hot rest scan

end Scan

/-- The time stored under a key, zero if there is none. -/
def currMax (lastTouched : LastTouched) (key : Bytes) : ℕ := ((lastTouched key).getD (0, 0)).1

/-- A key keeps the latest finish time; of several the first. -/
def touch (finishTime idx : ℕ) (lastTouched : LastTouched) (key : Bytes) : LastTouched :=
  if finishTime > currMax lastTouched key then
    Function.update lastTouched key (some (finishTime, idx))
  else lastTouched

/-- The variables of the loop in `add_all`. -/
structure Fill (T : Type) where
  filler : DependencyFiller T
  lastTouched : LastTouched
  skippedUsers : Finset Bytes
  returnVec : List (Candidate T)
  nonUserSkip : ℕ

namespace Fill
variable {T : Type} (s : Fill T) (c : Candidate T)

def giveBack : Fill T := { s with returnVec := s.returnVec ++ [c] }

def skipUser : Fill T :=
  { s.giveBack c with
    skippedUsers := insert c.sender s.skippedUsers
    nonUserSkip := s.nonUserSkip + 1 }

def setFull : Fill T := { s.giveBack c with filler := { s.filler with full := true } }

def accept (dependencies : Finset ℕ) (finishTime : ℕ) : Fill T :=
  { s with
    filler := { s.filler with
      totalEstimatedGas := s.filler.totalEstimatedGas + c.gasUsed
      full := s.filler.full || decide (s.filler.block.length + 1 ≥ s.filler.maxTxns)
      dependencyGraph := s.filler.dependencyGraph ++ [dependencies]
      block := s.filler.block ++ [c.tx]
      estimatedGas := s.filler.estimatedGas ++ [c.gasUsed]
      accepted := s.filler.accepted ++ [(c, finishTime)] }
    lastTouched :=
      c.touched.foldl (touch finishTime (s.filler.block.length % 2 ^ 16)) s.lastTouched }

/-- One round of the loop in `add_all`. -/
def step (goodBlock : Bool) (s : Fill T) (c : Candidate T) : Option (Fill T) :=
  let len := s.filler.block.length
  if s.filler.full then some (s.giveBack c)
  else if goodBlock && decide (c.sender ∈ s.skippedUsers) then some (s.giveBack c)
  else if s.filler.cores = 0 then none
  else
    let limitHotReads := goodBlock && decide (len ≥ 1000) && decide (len ≤ 9000)
    let hotReadLimit := s.filler.totalEstimatedGas % 2 ^ 32 / s.filler.cores
    match Scan.reads s.lastTouched (fun time => limitHotReads && decide (time > hotReadLimit))
      c.readSet .start with
    | none => some (s.skipUser c)
    | some scan =>
      let scan := scan.consult s.lastTouched (fun _ => false) c.sender
      let finishTime := scan.arrivalTime + c.gasUsed
      if finishTime ≥ 2 ^ 32 then none
      else if goodBlock && decide (finishTime > s.filler.gasPerCore % 2 ^ 32) then
        some (s.skipUser c)
      else if s.filler.totalEstimatedGas + c.gasUsed ≥ 2 ^ 64 then none
      else if s.filler.totalEstimatedGas + c.gasUsed > s.filler.totalMaxGas then
        some (s.setFull c)
      else some (s.accept c scan.dependencies finishTime)

end Fill

namespace DependencyFiller
variable {T : Type}

def new (gasPerCore maxTxns cores : ℕ) : Option (DependencyFiller T) :=
  if gasPerCore * cores < 2 ^ 64 then
    some ⟨gasPerCore, gasPerCore * cores, maxTxns, cores, 0, false, [], [], [], []⟩
  else none

theorem eq_of_new {gasPerCore maxTxns cores : ℕ} {f : DependencyFiller T}
    (h : new gasPerCore maxTxns cores = some f) :
    f = ⟨gasPerCore, gasPerCore * cores, maxTxns, cores, 0, false, [], [], [], []⟩ :=
  (Option.some.inj (Option.ite_none_right_eq_some.mp h).2).symm

/-- The batch is emptied; what is given back comes with a flag that tells whether nearly all
of it was skipped. -/
def addAll (f : DependencyFiller T) (result : List (Candidate T)) (lastTouched : LastTouched)
    (skippedUsers : Finset Bytes) (goodBlock : Bool) : Option (Fill T × Bool) :=
  (result.foldlM (Fill.step goodBlock) ⟨f, lastTouched, skippedUsers, [], 0⟩).map
    fun s => (s, decide (s.nonUserSkip + 25 ≥ result.length))

def setGasPerCore (f : DependencyFiller T) (lastMax : ℕ) : Option (DependencyFiller T) :=
  if f.cores = 0 then none else some { f with gasPerCore := lastMax / f.cores }

/-- A hash set may be listed in any order. -/
def GetDependencyGraph (f : DependencyFiller T) (graph : List (List ℕ)) : Prop :=
  List.Forall₂ (fun list set => list.toFinset = set) graph f.dependencyGraph

end DependencyFiller

/-! ## What the look-ups find -/

namespace Scan
variable {lastTouched : LastTouched} {hot : ℕ → Bool} {keys : List Bytes} {scan : Scan}

/-- The scan holds the latest time and every position stored under the keys. -/
structure Covers (lastTouched : LastTouched) (keys : List Bytes) (scan : Scan) : Prop where
  mem_dependencies : ∀ i, i ∈ scan.dependencies ↔ ∃ k ∈ keys, ∃ t, lastTouched k = some (t, i)
  le_arrivalTime : ∀ k ∈ keys, ∀ t i, lastTouched k = some (t, i) → t ≤ scan.arrivalTime
  arrivalTime_mem :
    scan.arrivalTime = 0 ∨ ∃ k ∈ keys, ∃ i, lastTouched k = some (scan.arrivalTime, i)

theorem Covers.start : Covers lastTouched [] start where
  mem_dependencies i := by simp [Scan.start]
  le_arrivalTime := nofun
  arrivalTime_mem := .inl rfl

theorem Covers.consult (h : scan.Covers lastTouched keys) (key : Bytes) :
    (scan.consult lastTouched hot key).Covers lastTouched (keys ++ [key]) := by
  cases hkey : lastTouched key with
  | none =>
    have hsame : scan.consult lastTouched hot key = scan := by simp [Scan.consult, hkey]
    rw [hsame]
    refine ⟨fun i => ?_, fun k hk t i hki => ?_, ?_⟩
    · simp [h.mem_dependencies, or_and_right, exists_or, hkey]
    · rcases List.mem_append.mp hk with hk | hk
      · exact h.le_arrivalTime k hk t i hki
      · rw [List.mem_singleton.mp hk, hkey] at hki
        cases hki
    · refine h.arrivalTime_mem.imp_right fun ⟨k, hk, i, hki⟩ => ⟨k, ?_, i, hki⟩
      exact List.mem_append_left _ hk
  | some entry =>
    obtain ⟨time, idx⟩ := entry
    have harrival : (scan.consult lastTouched hot key).arrivalTime = max scan.arrivalTime time := by
      simp [Scan.consult, hkey]
    have hdeps : (scan.consult lastTouched hot key).dependencies =
        insert idx scan.dependencies := by
      simp [Scan.consult, hkey]
    refine ⟨fun i => ?_, fun k hk t i hki => ?_, ?_⟩
    · simp [hdeps, h.mem_dependencies, or_and_right, exists_or, hkey, or_comm, eq_comm]
    · rw [harrival]
      rcases List.mem_append.mp hk with hk | hk
      · exact (h.le_arrivalTime k hk t i hki).trans (le_max_left _ _)
      · rw [List.mem_singleton.mp hk, hkey] at hki
        cases hki
        exact le_max_right _ _
    · rw [harrival]
      rcases le_total scan.arrivalTime time with hle | hle
      · rw [max_eq_right hle]
        exact .inr ⟨key, by simp, idx, hkey⟩
      · rw [max_eq_left hle]
        refine h.arrivalTime_mem.imp_right fun ⟨k, hk, i, hki⟩ => ⟨k, ?_, i, hki⟩
        exact List.mem_append_left _ hk

theorem Covers.reads {reads : List StateKey} {scan' : Scan} (h : scan.Covers lastTouched keys)
    (hreads : Scan.reads lastTouched hot reads scan = some scan') :
    scan'.Covers lastTouched (keys ++ reads.map StateKey.getRawRef) := by
  induction reads generalizing scan keys with
  | nil =>
    cases hreads
    simpa using h
  | cons read rest ih =>
    simp only [Scan.reads] at hreads
    split at hreads
    · cases hreads
    · have := ih (h.consult read.getRawRef) hreads
      rwa [List.append_assoc] at this

theorem reads_cold (hcold : ∀ time, hot time = false) (reads : List StateKey)
    (hscan : scan.hotReadAccess = 0) : Scan.reads lastTouched hot reads scan ≠ none := by
  induction reads generalizing scan with
  | nil => nofun
  | cons read rest ih =>
    have hzero : (scan.consult lastTouched hot read.getRawRef).hotReadAccess = 0 := by
      cases hkey : lastTouched read.getRawRef <;> simp [Scan.consult, hkey, hcold, hscan]
    simp only [Scan.reads, hzero]
    exact ih hzero

end Scan

/-! ## The outcomes of one round -/

namespace Fill
variable {T : Type} {goodBlock : Bool} {c : Candidate T} {s s' : Fill T}

/-- The five outcomes of a round that does not panic. -/
inductive Step (goodBlock : Bool) (c : Candidate T) (s : Fill T) : Fill T → Prop
  | full (hfull : s.filler.full = true) : Step goodBlock c s (s.giveBack c)
  | user (hgood : goodBlock = true) (huser : c.sender ∈ s.skippedUsers) :
      Step goodBlock c s (s.giveBack c)
  | skip (hgood : goodBlock = true) : Step goodBlock c s (s.skipUser c)
  | exceeds : Step goodBlock c s (s.setFull c)
  | accept (scan : Scan) (hfull : s.filler.full = false)
      (huser : goodBlock = true → c.sender ∉ s.skippedUsers)
      (hscan : scan.Covers s.lastTouched c.consulted)
      (hcost : goodBlock = true → scan.arrivalTime + c.gasUsed ≤ s.filler.gasPerCore)
      (hgas : s.filler.totalEstimatedGas + c.gasUsed ≤ s.filler.totalMaxGas) :
      Step goodBlock c s (s.accept c scan.dependencies (scan.arrivalTime + c.gasUsed))

theorem step_eq_some (h : step goodBlock s c = some s') : Step goodBlock c s s' := by
  simp only [step] at h
  split at h
  · rename_i hfull
    cases h
    exact .full hfull
  rename_i hfull
  split at h
  · rename_i huser
    cases h
    simp only [Bool.and_eq_true, decide_eq_true_eq] at huser
    exact .user huser.1 huser.2
  rename_i huser
  split at h
  · cases h
  split at h
  · rename_i hreads
    cases h
    refine .skip ?_
    by_contra hgood
    exact Scan.reads_cold (by simp [hgood]) c.readSet rfl hreads
  rename_i scan hreads
  split at h
  · cases h
  split at h
  · rename_i hlate
    cases h
    simp only [Bool.and_eq_true, decide_eq_true_eq] at hlate
    exact .skip hlate.1
  rename_i hlate
  split at h
  · cases h
  split at h
  · cases h
    exact .exceeds
  rename_i hgas
  cases h
  simp only [Bool.and_eq_true, decide_eq_true_eq, not_and, not_lt] at hlate huser
  refine .accept _ (by simpa using hfull) huser ?_ (fun hgood => ?_) (not_lt.mp hgas)
  · exact ((Scan.Covers.start.reads hreads).consult c.sender)
  · exact (hlate hgood).trans (Nat.mod_le _ _)

/-- A round panics on overflows and without cores only. -/
theorem step_returns (hcores : s.filler.cores ≠ 0)
    (htime : ∀ k t i, s.lastTouched k = some (t, i) → t + 2 ^ 16 ≤ 2 ^ 32)
    (htotal : s.filler.totalEstimatedGas + 2 ^ 16 ≤ 2 ^ 64) :
    ∃ s', step goodBlock s c = some s' := by
  have hgas := c.gasUsed_lt
  simp only [step, if_neg hcores]
  split
  · exact ⟨_, rfl⟩
  split
  · exact ⟨_, rfl⟩
  split
  · exact ⟨_, rfl⟩
  rename_i scan hreads
  have hcovers : (scan.consult s.lastTouched (fun _ => false) c.sender).Covers s.lastTouched
      c.consulted := (Scan.Covers.start.reads hreads).consult c.sender
  have hfinish : (scan.consult s.lastTouched (fun _ => false) c.sender).arrivalTime + c.gasUsed
      < 2 ^ 32 := by
    rcases hcovers.arrivalTime_mem with hzero | ⟨k, -, i, hki⟩
    · omega
    · have := htime k _ i hki
      omega
  rw [if_neg (not_le.mpr hfinish)]
  split
  · exact ⟨_, rfl⟩
  rw [if_neg (by omega)]
  split <;> exact ⟨_, rfl⟩

/-- Without `good_block` a round that finds room accepts. -/
theorem step_accepts (hfull : s.filler.full = false) (hcores : s.filler.cores ≠ 0)
    (htime : ∀ k t i, s.lastTouched k = some (t, i) → t + 2 ^ 16 ≤ 2 ^ 32)
    (htotal : s.filler.totalEstimatedGas + 2 ^ 16 ≤ 2 ^ 64)
    (hgas : s.filler.totalEstimatedGas + c.gasUsed ≤ s.filler.totalMaxGas) :
    ∃ scan : Scan, scan.Covers s.lastTouched c.consulted ∧
      step false s c = some (s.accept c scan.dependencies (scan.arrivalTime + c.gasUsed)) := by
  obtain ⟨s', hs'⟩ : ∃ s', step false s c = some s' := step_returns hcores htime htotal
  rw [hs']
  simp only [step, hfull, Bool.false_and, Bool.false_eq_true, if_false, if_neg hcores] at hs'
  split at hs'
  · rename_i hreads
    exact absurd hreads (Scan.reads_cold (fun _ => rfl) c.readSet rfl)
  rename_i scan hreads
  split at hs'
  · cases hs'
  split at hs'
  · cases hs'
  rw [if_neg (not_lt.mpr hgas)] at hs'
  exact ⟨_, (Scan.Covers.start.reads hreads).consult c.sender, hs'.symm⟩

end Fill

theorem touch_self {finishTime idx : ℕ} {lastTouched : LastTouched} {key : Bytes}
    (h : currMax lastTouched key < finishTime) :
    touch finishTime idx lastTouched key key = some (finishTime, idx) := by
  rw [touch, if_pos h, Function.update_self]

theorem touch_of_ne {finishTime idx : ℕ} {lastTouched : LastTouched} {key k : Bytes}
    (h : k ≠ key) : touch finishTime idx lastTouched key k = lastTouched k := by
  unfold touch
  split
  · exact Function.update_of_ne h _ _
  · rfl

theorem foldl_touch (finishTime idx : ℕ) (keys : List Bytes) (lastTouched : LastTouched)
    (k : Bytes) : keys.foldl (touch finishTime idx) lastTouched k =
      if k ∈ keys ∧ currMax lastTouched k < finishTime then some (finishTime, idx)
      else lastTouched k := by
  induction keys generalizing lastTouched with
  | nil => simp
  | cons key keys ih =>
    rw [List.foldl_cons, ih]
    by_cases hk : k = key
    · subst hk
      by_cases hlt : currMax lastTouched k < finishTime
      · have hmax : currMax (touch finishTime idx lastTouched k) k = finishTime := by
          simp [currMax, touch_self hlt]
        rw [hmax, if_neg (fun h => lt_irrefl _ h.2), if_pos ⟨List.mem_cons_self, hlt⟩,
          touch_self hlt]
      · have hsame : touch finishTime idx lastTouched k = lastTouched := if_neg hlt
        simp [hsame, hlt]
    · simp [currMax, touch_of_ne hk, hk]

/-! ## A whole batch -/

namespace Fill
variable {T : Type} {goodBlock : Bool} {f : DependencyFiller T} {users : Finset Bytes}
  {done : List (Candidate T)} {new : List (Candidate T × ℕ)} {s s' : Fill T}

def ofSender (u : Bytes) (c : Candidate T) : Bool := decide (c.sender = u)

/-- After the part `done` of a batch: what was given to the block and what was given back are
the two sides of a partition of it, and a sender with something given back gets nothing more
into the block. -/
structure Divides (goodBlock : Bool) (f : DependencyFiller T) (users : Finset Bytes)
    (done : List (Candidate T)) (s : Fill T) (new : List (Candidate T × ℕ)) : Prop where
  accepted_eq : s.filler.accepted = f.accepted ++ new
  block_eq : s.filler.block = f.block ++ new.map fun p => p.1.tx
  sorts : CheckedLoops.Sorts done (new.map Prod.fst) s.returnVec
  ordered : ∀ u, (new.map Prod.fst).filter (ofSender u) ++ s.returnVec.filter (ofSender u) =
    done.filter (ofSender u)
  blocked : ∀ u, s.returnVec.filter (ofSender u) ≠ [] →
    s.filler.full = true ∨ goodBlock = true ∧ u ∈ s.skippedUsers
  users_subset : users ⊆ s.skippedUsers
  full_mono : f.full = true → s.filler.full = true
  excluded : ∀ u, f.full = true ∨ goodBlock = true ∧ u ∈ users →
    (new.map Prod.fst).filter (ofSender u) = []
  gasPerCore_eq : s.filler.gasPerCore = f.gasPerCore
  cost_le : goodBlock = true → ∀ p ∈ new, p.2 ≤ f.gasPerCore

theorem Divides.start (lastTouched : LastTouched) :
    Divides goodBlock f users [] ⟨f, lastTouched, users, [], 0⟩ [] where
  accepted_eq := (List.append_nil _).symm
  block_eq := (List.append_nil _).symm
  sorts := .nil
  ordered _ := rfl
  blocked _ h := absurd rfl h
  users_subset := subset_rfl
  full_mono := id
  excluded _ _ := rfl
  gasPerCore_eq := rfl
  cost_le _ := nofun

theorem Divides.giveBack (h : Divides goodBlock f users done s new) {c : Candidate T}
    (haccepted : s'.filler.accepted = s.filler.accepted) (hblock : s'.filler.block = s.filler.block)
    (hgas : s'.filler.gasPerCore = s.filler.gasPerCore)
    (hfull : s.filler.full = true → s'.filler.full = true)
    (husers : s.skippedUsers ⊆ s'.skippedUsers) (hreturn : s'.returnVec = s.returnVec ++ [c])
    (hblocked : s'.filler.full = true ∨ goodBlock = true ∧ c.sender ∈ s'.skippedUsers) :
    Divides goodBlock f users (done ++ [c]) s' new where
  accepted_eq := haccepted.trans h.accepted_eq
  block_eq := hblock.trans h.block_eq
  sorts := hreturn ▸ h.sorts.right c
  ordered u := by
    rw [hreturn, List.filter_append, List.filter_append, ← List.append_assoc, h.ordered u]
  blocked u hu := by
    by_cases hc : c.sender = u
    · exact hc ▸ hblocked
    · rw [hreturn] at hu
      have : s.returnVec.filter (ofSender u) ≠ [] := by simpa [ofSender, hc] using hu
      exact (h.blocked u this).imp hfull fun hg => ⟨hg.1, husers hg.2⟩
  users_subset := h.users_subset.trans husers
  full_mono hf := hfull (h.full_mono hf)
  excluded := h.excluded
  gasPerCore_eq := hgas.trans h.gasPerCore_eq
  cost_le := h.cost_le

theorem Divides.accept (h : Divides goodBlock f users done s new) {c : Candidate T}
    {deps : Finset ℕ} {finishTime : ℕ} (hfull : s.filler.full = false)
    (huser : goodBlock = true → c.sender ∉ s.skippedUsers)
    (hcost : goodBlock = true → finishTime ≤ s.filler.gasPerCore) :
    Divides goodBlock f users (done ++ [c]) (s.accept c deps finishTime)
      (new ++ [(c, finishTime)]) := by
  have hfree : s.returnVec.filter (ofSender c.sender) = [] := by
    by_contra hne
    rcases h.blocked _ hne with hf | hg
    · exact Bool.false_ne_true (hfull.symm.trans hf)
    · exact huser hg.1 hg.2
  have hnotFull : f.full = false := by
    by_contra hf
    exact Bool.false_ne_true (hfull.symm.trans (h.full_mono (by simpa using hf)))
  have hmap : (new ++ [(c, finishTime)]).map Prod.fst = new.map Prod.fst ++ [c] := by simp
  constructor
  case accepted_eq => simp [Fill.accept, h.accepted_eq]
  case block_eq => simp [Fill.accept, h.block_eq]
  case sorts => exact hmap ▸ h.sorts.left c
  case ordered =>
    intro u
    rw [hmap, List.filter_append, List.filter_append, ← h.ordered u]
    by_cases hc : c.sender = u
    · subst hc
      simp [Fill.accept, hfree]
    · simp [Fill.accept, ofSender, hc]
  case blocked =>
    intro u hu
    refine (h.blocked u hu).imp (fun hf => ?_) id
    simp [Fill.accept, hf]
  case users_subset => exact h.users_subset
  case full_mono =>
    intro hf
    exact absurd (hnotFull.symm.trans hf) Bool.false_ne_true
  case excluded =>
    intro u hu
    have hc : c.sender ≠ u := by
      rintro rfl
      rcases hu with hf | hg
      · exact Bool.false_ne_true (hnotFull.symm.trans hf)
      · exact huser hg.1 (h.users_subset hg.2)
    simpa [hmap, ofSender, hc] using h.excluded u hu
  case gasPerCore_eq => exact h.gasPerCore_eq
  case cost_le =>
    intro hgood p hp
    rcases List.mem_append.mp hp with hp | hp
    · exact h.cost_le hgood p hp
    · rw [List.mem_singleton.mp hp]
      exact h.gasPerCore_eq ▸ hcost hgood

theorem Divides.step (h : Divides goodBlock f users done s new) {c : Candidate T}
    (hstep : Step goodBlock c s s') : ∃ new', Divides goodBlock f users (done ++ [c]) s' new' := by
  cases hstep with
  | full hfull => exact ⟨new, h.giveBack rfl rfl rfl id subset_rfl rfl (.inl hfull)⟩
  | user hgood huser => exact ⟨new, h.giveBack rfl rfl rfl id subset_rfl rfl (.inr ⟨hgood, huser⟩)⟩
  | skip hgood =>
    refine ⟨new, h.giveBack rfl rfl rfl id (Finset.subset_insert _ _) rfl (.inr ⟨hgood, ?_⟩)⟩
    exact Finset.mem_insert_self _ _
  | exceeds => exact ⟨new, h.giveBack rfl rfl rfl (fun _ => rfl) subset_rfl rfl (.inl rfl)⟩
  | accept scan hfull huser _ hcost _ => exact ⟨_, h.accept hfull huser hcost⟩

end Fill

theorem DependencyFiller.addAll_keeps {T : Type} {I : DependencyFiller T → LastTouched → Prop}
    {f : DependencyFiller T} {batch : List (Candidate T)} {lastTouched : LastTouched}
    {users : Finset Bytes} {goodBlock flag : Bool} {s : Fill T}
    (h : f.addAll batch lastTouched users goodBlock = some (s, flag)) (hI : I f lastTouched)
    (hstep : ∀ c ∈ batch, ∀ t t', I t.filler t.lastTouched → Fill.Step goodBlock c t t' →
      I t'.filler t'.lastTouched) : I s.filler s.lastTouched := by
  obtain ⟨s', hfold, hs⟩ := Option.map_eq_some_iff.mp h
  cases hs
  exact CheckedLoops.foldlM_keeps (I := fun t => I t.filler t.lastTouched) hI
    (fun c hc t t' ht hround => hstep c hc t t' ht (Fill.step_eq_some hround)) hfold

/-- The part of the batch that goes into the block and the part that is given back. -/
theorem DependencyFiller.addAll_divides {T : Type} {f : DependencyFiller T}
    {batch : List (Candidate T)} {lastTouched : LastTouched} {users : Finset Bytes}
    {goodBlock flag : Bool} {s : Fill T}
    (h : f.addAll batch lastTouched users goodBlock = some (s, flag)) :
    ∃ new, Fill.Divides goodBlock f users batch s new := by
  obtain ⟨s', hfold, hs⟩ := Option.map_eq_some_iff.mp h
  cases hs
  refine CheckedLoops.foldlM_invariant (I := fun done s => ∃ new, Fill.Divides goodBlock f users
    done s new) batch ⟨[], .start lastTouched⟩ ?_ hfold
  rintro done c t t' ⟨new, hnew⟩ hstep
  exact hnew.step (Fill.step_eq_some hstep)

end Anthemius

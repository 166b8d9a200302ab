import Anthemius.EpochChanges

/-!
# Trusted states of a light client

A client trusts a waypoint, or a waypoint together with the validators of an epoch. A state proof
moves it to a later ledger info, through the epoch changes in between.
-/
namespace Anthemius.Consensus

def BlockInfo.nextBlockEpoch (info : BlockInfo) : UInt64 :=
  match info.nextEpochState with
  | some state => state.epoch
  | none => info.epoch

/-- A proof that may be cut off before the last epoch change. -/
structure EpochChanges extends EpochChangeProof where
  more : Bool

structure StateProof where
  latestLiWSigs : LedgerInfoWithSignatures
  epochChanges : EpochChanges

inductive TrustedState
  | epochWaypoint (waypoint : Waypoint)
  | epochState (waypoint : Waypoint) (epochState : EpochState)
  deriving DecidableEq

inductive TrustedStateChange
  | version (newState : TrustedState)
  | epoch (newState : TrustedState) (latestEpochChangeLi : LedgerInfoWithSignatures)
  | noChange

def Verifier.epochChangeVerificationRequired (verifier : Verifier) (epoch : UInt64) : Bool :=
  match verifier with
  | .waypoint _ => true
  | .epochState state => state.epoch < epoch

def TrustedStateChange.newState : TrustedStateChange → Option TrustedState
  | .version newState | .epoch newState _ => some newState
  | .noChange => none

namespace TrustedState
variable (c : Crypto) (s : TrustedState)

def waypoint : Waypoint :=
  match s with
  | .epochWaypoint waypoint => waypoint
  | .epochState waypoint _ => waypoint

def version : Version := s.waypoint.version

/-- What epoch changes are checked against. -/
def verifier : Verifier :=
  match s with
  | .epochWaypoint waypoint => .waypoint waypoint
  | .epochState _ state => .epochState state

/-- The latest ledger info when it is in the new epoch. A proof that is cut off only leads to its
last epoch change. -/
def verifiedLedgerInfo (epochChangeLi latestLi : LedgerInfoWithSignatures)
    (newEpochState : EpochState) (more : Bool) : Except String LedgerInfoWithSignatures :=
  if epochChangeLi = latestLi then .ok latestLi
  else if latestLi.ledgerInfo.commitInfo.epoch = newEpochState.epoch then do
    newEpochState.verify c latestLi
    pure latestLi
  else if latestLi.ledgerInfo.commitInfo.epoch > newEpochState.epoch ∧ more then .ok epochChangeLi
  else .error "Inconsistent epoch change proof and latest ledger info"

def ratchetEpoch (latestLi : LedgerInfoWithSignatures) (changes : EpochChanges) :
    Except String TrustedStateChange := do
  let epochChangeLi ← changes.verify c s.verifier
  let newEpochState ← okOr epochChangeLi.ledgerInfo.commitInfo.nextEpochState
    "A valid EpochChangeProof will never return a non-epoch change ledger info"
  let verified ← verifiedLedgerInfo c epochChangeLi latestLi newEpochState changes.more
  pure (.epoch (.epochState (.newAny c verified.ledgerInfo) newEpochState) epochChangeLi)

def ratchetVersion (latestLi : LedgerInfoWithSignatures) : Except String TrustedStateChange :=
  match s with
  | .epochWaypoint _ => .error "EpochWaypoint can only verify an epoch change ledger info"
  | .epochState currWaypoint currEpochState =>
    let newWaypoint := Waypoint.newAny c latestLi.ledgerInfo
    if newWaypoint.version = currWaypoint.version then do
      okIf (newWaypoint == currWaypoint) "LedgerInfo doesn't match verified state"
      pure .noChange
    else do
      currEpochState.verify c latestLi
      pure (.version (.epochState newWaypoint currEpochState))

def verifyAndRatchet (proof : StateProof) : Except String TrustedStateChange := do
  let latest := proof.latestLiWSigs.ledgerInfo.commitInfo
  okIf (latest.version ≥ s.version)
    ("The target latest ledger info version is stale (" ++ toString latest.version ++
      ") and behind our current trusted version (" ++ toString s.version ++ ")")
  if s.verifier.epochChangeVerificationRequired latest.nextBlockEpoch then
    s.ratchetEpoch c proof.latestLiWSigs proof.epochChanges
  else s.ratchetVersion c proof.latestLiWSigs

/-- The client keeps its state when there is no newer one. -/
def ratchet (proof : StateProof) : TrustedState :=
  match s.verifyAndRatchet c proof with
  | .ok change => change.newState.getD s
  | .error _ => s

def run (proofs : List StateProof) : TrustedState := proofs.foldl (ratchet c) s

end TrustedState

/-! ## The chain -/

/-- A ledger info that ends its epoch is followed by one of the next epoch. -/
structure LedgerInfo.Next (li next : LedgerInfo) : Prop where
  version : li.commitInfo.version < next.commitInfo.version
  epoch : next.commitInfo.epoch = li.commitInfo.nextBlockEpoch

/-- Only the ledger infos of the chain have a quorum of signatures. -/
structure CanonicalChain (c : Crypto) (chain : List LedgerInfo) : Prop where
  next : chain.IsChain LedgerInfo.Next
  epoch : ∀ li ∈ chain, ∀ state, li.commitInfo.nextEpochState = some state →
    state.epoch.toNat = li.commitInfo.epoch.toNat + 1
  signed : ∀ li ∈ chain, ∀ state, li.commitInfo.nextEpochState = some state →
    ∀ signed, state.verify c signed = .ok () → signed.ledgerInfo ∈ chain

namespace CanonicalChain
variable {c : Crypto} {chain : List LedgerInfo} {li li' : LedgerInfo}
  {state : EpochState}

theorem epoch_le (h : CanonicalChain c chain) (hli : li ∈ chain) :
    li.commitInfo.epoch ≤ li.commitInfo.nextBlockEpoch := by
  rw [BlockInfo.nextBlockEpoch]
  split
  next state hstate =>
    rw [UInt64.le_iff_toNat_le, h.epoch li hli state hstate]
    exact Nat.le_succ _
  next => exact UInt64.le_refl _

/-- The version and the epoch after a ledger info only grow. -/
structure Before (li li' : LedgerInfo) : Prop where
  version : li.commitInfo.version < li'.commitInfo.version
  epoch : li.commitInfo.nextBlockEpoch ≤ li'.commitInfo.epoch
  next : li'.commitInfo.epoch ≤ li'.commitInfo.nextBlockEpoch

instance : Trans Before Before Before where
  trans h h' := ⟨UInt64.lt_trans h.version h'.version,
    UInt64.le_trans h.epoch (UInt64.le_trans h.next h'.epoch), h'.next⟩

theorem pairwise (h : CanonicalChain c chain) : chain.Pairwise Before := by
  refine List.IsChain.pairwise (h.next.imp_of_mem_imp fun li li' _ hli' hnext => ?_)
  exact ⟨hnext.version, hnext.epoch ▸ UInt64.le_refl _, h.epoch_le hli'⟩

theorem trichotomy (h : CanonicalChain c chain) (hli : li ∈ chain) (hli' : li' ∈ chain) :
    li = li' ∨ Before li li' ∨ Before li' li := by
  obtain ⟨i, hi, rfl⟩ := List.getElem_of_mem hli
  obtain ⟨j, hj, rfl⟩ := List.getElem_of_mem hli'
  have hpairs := List.pairwise_iff_getElem.mp h.pairwise
  obtain hlt | rfl | hgt := Nat.lt_trichotomy i j
  · exact Or.inr (Or.inl (hpairs i j hi hj hlt))
  · exact Or.inl rfl
  · exact Or.inr (Or.inr (hpairs j i hj hi hgt))

/-- The end of an epoch comes after all ledger infos of the epoch and of those before. -/
theorem version_le (h : CanonicalChain c chain) (hli : li ∈ chain) (hli' : li' ∈ chain)
    (hstate : li'.commitInfo.nextEpochState = some state)
    (hepoch : li.commitInfo.epoch ≤ li'.commitInfo.epoch) :
    li.commitInfo.version ≤ li'.commitInfo.version := by
  obtain rfl | hbefore | hafter := h.trichotomy hli hli'
  · exact UInt64.le_refl _
  · exact UInt64.le_of_lt hbefore.version
  · have hnext := h.epoch li' hli' state hstate
    have hle := hafter.epoch
    rw [BlockInfo.nextBlockEpoch, hstate] at hle
    dsimp only at hle
    rw [UInt64.le_iff_toNat_le] at hle hepoch
    omega

end CanonicalChain

/-! ## Epoch changes along the chain -/

section EpochChanges
variable (c : Crypto) (chain : List LedgerInfo)

/-- The verifier belongs to the chain, from an epoch on. -/
inductive Verifier.OnChain : Verifier → ℕ → Prop
  | waypoint {li : LedgerInfo} {state : EpochState} (hli : li ∈ chain)
      (hstate : li.commitInfo.nextEpochState = some state) :
      OnChain (.waypoint (.newAny c li)) li.commitInfo.epoch.toNat
  | epochState {li : LedgerInfo} {state : EpochState} (hli : li ∈ chain)
      (hstate : li.commitInfo.nextEpochState = some state) :
      OnChain (.epochState state) state.epoch.toNat

/-- The ledger info ends an epoch as one of the chain does. -/
structure LedgerInfo.EndsAs (li end' : LedgerInfo) (state : EpochState) : Prop where
  mem : end' ∈ chain
  state : end'.commitInfo.nextEpochState = some state
  same : Ledger2WaypointConverter.new li = .new end'

variable {c chain} {verifier next : Verifier} {n : ℕ} {li end' : LedgerInfo} {state : EpochState}

theorem LedgerInfo.EndsAs.nextEpochState (h : li.EndsAs chain end' state) :
    li.commitInfo.nextEpochState = some state :=
  (congrArg Ledger2WaypointConverter.nextEpochState h.same).trans h.state

theorem LedgerInfo.EndsAs.newAny (h : li.EndsAs chain end' state) :
    Waypoint.newAny c li = .newAny c end' := by
  rw [Waypoint.newAny, Waypoint.newAny, h.same,
    show li.commitInfo.version = end'.commitInfo.version from
      congrArg Ledger2WaypointConverter.version h.same]

theorem Verifier.OnChain.verifyNext (hc : Function.Injective c.hashWaypoint)
    (hchain : CanonicalChain c chain) (h : verifier.OnChain c chain n)
    {signed : LedgerInfoWithSignatures} (hok : verifier.verifyNext c signed = .ok next) :
    ∃ end' state, signed.ledgerInfo.EndsAs chain end' state ∧ n ≤ end'.commitInfo.epoch.toNat ∧
      next = .epochState state := by
  simp only [Verifier.verifyNext, bind_eq_ok, okOr_eq_ok, exists_unit] at hok
  obtain ⟨hverify, announced, hannounced, hnext⟩ := hok
  cases hnext
  cases h with
  | @waypoint li state hli hstate =>
    simp only [Verifier.verify, Waypoint.verify, bind_eq_ok, okIf_eq_ok, beq_iff_eq,
      exists_unit] at hverify
    have hsame := hc hverify.2
    have hends : signed.ledgerInfo.EndsAs chain li state := ⟨hli, hstate, hsame⟩
    obtain rfl := Option.some.inj (hannounced.symm.trans hends.nextEpochState)
    exact ⟨li, announced, hends, le_rfl, rfl⟩
  | @epochState li state hli hstate =>
    have hmem := hchain.signed li hli state hstate signed hverify
    simp only [Verifier.verify, EpochState.verify, bind_eq_ok, okIf_eq_ok, beq_iff_eq,
      exists_unit] at hverify
    exact ⟨signed.ledgerInfo, announced, ⟨hmem, hannounced, rfl⟩, by rw [hverify.1], rfl⟩

theorem Verifier.OnChain.foldlM (hc : Function.Injective c.hashWaypoint)
    (hchain : CanonicalChain c chain) (h : verifier.OnChain c chain n)
    {lis : List LedgerInfoWithSignatures} {signed : LedgerInfoWithSignatures}
    (hlast : lis.getLast? = some signed)
    (hok : lis.foldlM (Verifier.verifyNext c) verifier = .ok next) :
    ∃ end' state, signed.ledgerInfo.EndsAs chain end' state ∧
      n ≤ end'.commitInfo.epoch.toNat := by
  induction lis generalizing verifier n with
  | nil => cases hlast
  | cons first rest ih =>
    rw [List.foldlM_cons, bind_eq_ok] at hok
    obtain ⟨second, hfirst, hrest⟩ := hok
    obtain ⟨end', state, hends, hle, rfl⟩ := h.verifyNext hc hchain hfirst
    cases rest with
    | nil =>
      obtain rfl := Option.some.inj hlast
      exact ⟨end', state, hends, hle⟩
    | cons li rest =>
      rw [List.getLast?_cons_cons] at hlast
      have hepoch := hchain.epoch end' hends.mem state hends.state
      obtain ⟨last, state', hlast', hle'⟩ := ih (.epochState hends.mem hends.state) hlast hrest
      exact ⟨last, state', hlast', by omega⟩

theorem getLast?_dropWhile {α : Type} {p : α → Bool} {xs : List α} {x : α}
    (hlast : xs.getLast? = some x) (hx : p x = false) : (xs.dropWhile p).getLast? = some x := by
  rw [← List.takeWhile_append_dropWhile (p := p) (l := xs), List.getLast?_append] at hlast
  cases hrest : (xs.dropWhile p).getLast? with
  | some y =>
    rw [hrest] at hlast
    exact hlast
  | none =>
    rw [hrest, Option.none_or] at hlast
    have hp := List.all_eq_true.mp List.all_takeWhile x (List.mem_of_getLast? hlast)
    rw [hx] at hp
    cases hp

/-- An accepted proof ends at an epoch change of the chain. -/
theorem EpochChangeProof.verify_onChain (hc : Function.Injective c.hashWaypoint)
    (hchain : CanonicalChain c chain) (h : verifier.OnChain c chain n) {proof : EpochChangeProof}
    {signed : LedgerInfoWithSignatures} (hok : proof.verify c verifier = .ok signed) :
    ∃ end' state, signed.ledgerInfo.EndsAs chain end' state ∧
      n ≤ end'.commitInfo.epoch.toNat := by
  simp only [EpochChangeProof.verify, bind_eq_ok, okOr_eq_ok, okIf_eq_ok, exists_unit] at hok
  obtain ⟨last, hlast, hfresh, _, hfold, heq⟩ := hok
  cases heq
  refine h.foldlM hc hchain (getLast?_dropWhile hlast ?_) hfold
  rwa [Bool.not_eq_true'] at hfresh

end EpochChanges

/-! ## Ratcheting along the chain -/

namespace TrustedState
variable (c : Crypto) (chain : List LedgerInfo)

/-- The waypoint of an epoch change, or a ledger info with the validators of its epoch. The ledger
info that ends an epoch goes with the validators it announces, too. -/
inductive OnChain : TrustedState → Prop
  | epochWaypoint {li : LedgerInfo} {state : EpochState} (hli : li ∈ chain)
      (hstate : li.commitInfo.nextEpochState = some state) :
      OnChain (.epochWaypoint (.newAny c li))
  | epochState {li change : LedgerInfo} {state : EpochState} (hli : li ∈ chain)
      (hchange : change ∈ chain) (hstate : change.commitInfo.nextEpochState = some state)
      (hepoch : li = change ∨ li.commitInfo.epoch = state.epoch) :
      OnChain (.epochState (.newAny c li) state)

variable {c chain} {s new : TrustedState}

/-- The ledger info of the state is not after the first epoch that its verifier accepts. -/
theorem OnChain.verifier (hchain : CanonicalChain c chain) (h : s.OnChain c chain) :
    ∃ li ∈ chain, s.waypoint = .newAny c li ∧
      ∃ n, s.verifier.OnChain c chain n ∧ li.commitInfo.epoch.toNat ≤ n := by
  cases h with
  | @epochWaypoint li state hli hstate =>
    exact ⟨li, hli, rfl, _, .waypoint hli hstate, le_rfl⟩
  | @epochState li change state hli hchange hstate hepoch =>
    refine ⟨li, hli, rfl, _, .epochState hchange hstate, ?_⟩
    obtain rfl | hepoch := hepoch
    · have hnext := hchain.epoch li hli state hstate
      omega
    · rw [hepoch]

theorem OnChain.ratchetEpoch (hc : Function.Injective c.hashWaypoint)
    (hchain : CanonicalChain c chain) (h : s.OnChain c chain)
    {latest : LedgerInfoWithSignatures} {changes : EpochChanges} {change : TrustedStateChange}
    (hlatest : s.version ≤ latest.ledgerInfo.commitInfo.version)
    (hok : s.ratchetEpoch c latest changes = .ok change) (hnew : change.newState = some new) :
    new.OnChain c chain ∧ s.version ≤ new.version := by
  obtain ⟨li, hli, hwaypoint, n, hverifier, hn⟩ := h.verifier hchain
  simp only [TrustedState.ratchetEpoch, bind_eq_ok, okOr_eq_ok] at hok
  obtain ⟨epochChange, hproof, state, hstate, verified, hverified, hchange⟩ := hok
  cases hchange
  cases hnew
  obtain ⟨end', state', hends, hle⟩ := EpochChangeProof.verify_onChain hc hchain hverifier hproof
  obtain rfl := Option.some.inj (hstate.symm.trans hends.nextEpochState)
  -- the last epoch change goes with the validators it announces
  have hend :
      (TrustedState.epochState (.newAny c epochChange.ledgerInfo) state).OnChain c chain := by
    rw [hends.newAny]
    exact .epochState hends.mem hends.mem hends.state (Or.inl rfl)
  rw [verifiedLedgerInfo] at hverified
  split at hverified
  next hsame =>
    cases hverified
    rw [← hsame] at hlatest ⊢
    exact ⟨hend, hlatest⟩
  next =>
    split at hverified
    next hepoch =>
      simp only [bind_eq_ok, exists_unit] at hverified
      obtain ⟨hsigned, heq⟩ := hverified
      cases heq
      have hmem := hchain.signed end' hends.mem state hends.state latest hsigned
      exact ⟨.epochState hmem hends.mem hends.state (Or.inr hepoch), hlatest⟩
    next =>
      split at hverified
      · cases hverified
        refine ⟨hend, ?_⟩
        rw [hends.newAny, version, hwaypoint]
        exact hchain.version_le hli hends.mem hends.state
          (UInt64.le_iff_toNat_le.mpr (hn.trans hle))
      · cases hverified

theorem OnChain.ratchetVersion (hchain : CanonicalChain c chain) (h : s.OnChain c chain)
    {latest : LedgerInfoWithSignatures} {change : TrustedStateChange}
    (hlatest : s.version ≤ latest.ledgerInfo.commitInfo.version)
    (hok : s.ratchetVersion c latest = .ok change) (hnew : change.newState = some new) :
    new.OnChain c chain ∧ s.version ≤ new.version := by
  cases h with
  | epochWaypoint hli hstate => cases hok
  | @epochState li announcer state hli hchange hstate hepoch =>
    rw [TrustedState.ratchetVersion] at hok
    split at hok
    · simp only [bind_eq_ok, exists_unit] at hok
      cases hok.2
      cases hnew
    · simp only [bind_eq_ok, exists_unit] at hok
      obtain ⟨hsigned, heq⟩ := hok
      cases heq
      cases hnew
      have hmem := hchain.signed announcer hchange state hstate latest hsigned
      simp only [EpochState.verify, bind_eq_ok, okIf_eq_ok, beq_iff_eq, exists_unit] at hsigned
      exact ⟨.epochState hmem hchange hstate (Or.inr hsigned.1.symm), hlatest⟩

theorem OnChain.ratchet (hc : Function.Injective c.hashWaypoint) (hchain : CanonicalChain c chain)
    (h : s.OnChain c chain) (proof : StateProof) :
    (s.ratchet c proof).OnChain c chain ∧ s.version ≤ (s.ratchet c proof).version := by
  rw [TrustedState.ratchet]
  split
  next change hok =>
    cases hnew : change.newState with
    | none => exact ⟨h, UInt64.le_refl _⟩
    | some new =>
      rw [Option.getD_some]
      rw [verifyAndRatchet] at hok
      simp only [bind_eq_ok, okIf_eq_ok, decide_eq_true_eq, exists_unit] at hok
      obtain ⟨hlatest, hok⟩ := hok
      split at hok
      · exact h.ratchetEpoch hc hchain hlatest hok hnew
      · exact h.ratchetVersion hchain hlatest hok hnew
  next => exact ⟨h, UInt64.le_refl _⟩

theorem OnChain.run (hc : Function.Injective c.hashWaypoint) (hchain : CanonicalChain c chain)
    (h : s.OnChain c chain) (proofs : List StateProof) :
    (s.run c proofs).OnChain c chain ∧ s.version ≤ (s.run c proofs).version := by
  induction proofs generalizing s with
  | nil => exact ⟨h, UInt64.le_refl _⟩
  | cons proof proofs ih =>
    obtain ⟨hfirst, hle⟩ := h.ratchet hc hchain proof
    obtain ⟨hrest, hle'⟩ := ih hfirst
    exact ⟨hrest, UInt64.le_trans hle hle'⟩

/-- In every run the trusted states belong to the chain and their versions do not decrease. -/
theorem run_onChain (hc : Function.Injective c.hashWaypoint) (hchain : CanonicalChain c chain)
    (h : s.OnChain c chain) (proofs more : List StateProof) :
    (s.run c proofs).OnChain c chain ∧
      (s.run c proofs).version ≤ (s.run c (proofs ++ more)).version := by
  have hend := h.run hc hchain proofs
  refine ⟨hend.1, ?_⟩
  rw [TrustedState.run, TrustedState.run, List.foldl_append]
  exact (hend.1.run hc hchain more).2

end TrustedState

/-! A chain with one change of epoch after genesis. -/
namespace ShortChain

def validators : ValidatorVerifier := ⟨[⟨0, 0, 1⟩]⟩

def ledgerInfo (epoch : UInt64) (version : Version) (next : Option EpochState) : LedgerInfo :=
  ⟨⟨epoch, 0, 0, 0, version, 0, next⟩, 0⟩

def genesis : LedgerInfo := ledgerInfo 0 0 (some ⟨1, validators⟩)

def first : LedgerInfo := ledgerInfo 1 4 (some ⟨2, validators⟩)

def second : LedgerInfo := ledgerInfo 2 9 none

def chain : List LedgerInfo := [genesis, first, second]

/-- Only the ledger infos after genesis are signed. -/
noncomputable def crypto : Crypto where
  bls := ⟨fun _ li _ => li = first ∨ li = second, fun _ => some 0⟩
  hashWaypoint := tableHash [.new genesis, .new first, .new second]

theorem canonical : CanonicalChain crypto chain where
  next := by
    simp only [chain, List.isChain_cons_cons, List.isChain_singleton, and_true]
    exact ⟨⟨by decide, rfl⟩, ⟨by decide, rfl⟩⟩
  epoch := by
    intro li hli state hstate
    simp only [chain, List.mem_cons, List.not_mem_nil, or_false] at hli
    obtain rfl | rfl | rfl := hli
    all_goals cases hstate
    all_goals rfl
  signed := by
    intro li _ state _ signed h
    simp only [EpochState.verify, bind_eq_ok, exists_unit, mapError_eq_ok,
      LedgerInfoWithSignatures.verifySignatures, ValidatorVerifier.verifyMultiSignatures,
      okIf_eq_ok] at h
    obtain ⟨-, _, -, _, -, _, -, hsigned⟩ := h
    simp only [crypto, decide_eq_true_eq] at hsigned
    obtain heq | heq := hsigned
    all_goals rw [heq]
    all_goals decide

def signed (li : LedgerInfo) : LedgerInfoWithSignatures := ⟨li, ⟨⟨[128]⟩, some 0⟩⟩

/-- The changes of epoch and the last ledger info. -/
def proof : StateProof := ⟨signed second, ⟨⟨[⟨genesis, .empty⟩, signed first]⟩, false⟩⟩

end ShortChain

open ShortChain in
theorem TrustedState.run_onChain_shortChain :
    (TrustedState.epochWaypoint (.newAny crypto genesis)).run crypto [proof] =
        .epochState (.newAny crypto second) ⟨2, validators⟩ ∧
      ((TrustedState.epochWaypoint (.newAny crypto genesis)).run crypto [proof]).OnChain crypto
        chain := by
  refine ⟨by decide +kernel, ?_⟩
  exact (run_onChain (tableHash_injective _) canonical
    (.epochWaypoint (by decide : genesis ∈ chain) rfl) [proof] []).1

end Anthemius.Consensus

import Anthemius.TransactionStores
import Mathlib.Data.Finset.Card

/-!
# Senders and validators

A validator takes the transactions of some senders only, by its position among all validators and by
the sum of the bytes of the address. The quotients of the source are computed with floating-point
numbers; for up to 255 validators they are exact after rounding.
-/
namespace Anthemius.Mempool

abbrev PeerId := ℕ

def getPeerCount (syncStates : Finset PeerId) : ℕ := syncStates.card

/-- One less than the number of peers for each peer with a larger id. -/
def getPeerPosition (syncStates : Finset PeerId) (peerId : PeerId) : ℕ :=
  getPeerCount syncStates - (syncStates.filter (peerId < ·)).card

/-- The wrapping sum of the 32 bytes. -/
def shard (sender : AccountAddress) : ℕ :=
  ((List.range 32).map fun k => sender / 256 ^ k % 256).sum % 256

def shards (peerCount : ℕ) : ℕ := peerCount / 3 + 1

def dif (peerCount : ℕ) : ℕ := (256 + peerCount - 1) / peerCount

def inMySpace (peerCount peerId val : ℕ) : Bool :=
  let mySpaceStart := if 1 < peerCount then peerId * dif peerCount else 0
  let mySpaceEnd :=
    if 1 < peerCount then mySpaceStart + dif peerCount * shards peerCount else 255
  if 255 < mySpaceEnd then !(val < mySpaceStart && mySpaceEnd - 255 ≤ val)
  else !(val < mySpaceStart || mySpaceEnd ≤ val)

/-- What does not get to the store. -/
inductive NotAdded
  | invalidSeqNumber (sequenceNumber dbSequenceNumber : ℕ)
  | unknownStatus
  deriving DecidableEq

def NotAdded.message : NotAdded → String
  | invalidSeqNumber sequenceNumber dbSequenceNumber =>
    s!"transaction sequence number is {sequenceNumber}, " ++
      s!"current sequence number is  {dbSequenceNumber}"
  | unknownStatus => "sharded out this tx"

def addShardedTxn {P : Type} [DecidableEq P] (s : TransactionStore P) (txn : SignedTransaction P)
    (rankingScore : ℕ) (sequenceInfo : AccountSequenceInfo) (timelineState : TimelineState)
    (peerCount peerId expirationTime choice : ℕ) :
    Option (Except NotAdded MempoolStatus × TransactionStore P) :=
  let dbSequenceNumber := sequenceInfo.minSeq
  if txn.sequenceNumber < dbSequenceNumber then
    some (.error (.invalidSeqNumber txn.sequenceNumber dbSequenceNumber), s)
  else if !inMySpace peerCount peerId (shard txn.sender) then some (.error .unknownStatus, s)
  else (s.insert ⟨txn, expirationTime, rankingScore, timelineState, .sequential dbSequenceNumber⟩
    choice).map fun inserted => (.ok inserted.1, inserted.2)

/-! ## Every sender has enough validators -/

theorem inMySpace_of {n p val : ℕ} (hn : 1 < n)
    (h : p * dif n ≤ val ∧ val < (p + shards n) * dif n ∨ 256 + val ≤ (p + shards n) * dif n) :
    inMySpace n p val = true := by
  rw [Nat.add_mul, Nat.mul_comm (shards n)] at h
  simp only [inMySpace, if_pos hn]
  split <;> simp <;> omega

theorem shards_le_card_positions {n val : ℕ} (hn : 1 < n) (hval : val < 256) :
    shards n ≤ ((Finset.range n).filter fun p => inMySpace n p val = true).card := by
  have hcover : 256 ≤ n * dif n := by
    have := Nat.lt_div_mul_add (a := 256 + n - 1) (b := n) (by omega)
    rw [dif, Nat.mul_comm]
    omega
  have hdif : 0 < dif n := Nat.pos_of_mul_pos_left (by omega : 0 < n * dif n)
  have hlow : val / dif n * dif n ≤ val := Nat.div_mul_le_self val (dif n)
  have hhigh : val < (val / dif n + 1) * dif n := by
    rw [Nat.mul_comm]
    exact Nat.lt_mul_div_succ val hdif
  have hq : val / dif n < n := (Nat.div_lt_iff_lt_mul hdif).mpr (by omega)
  generalize val / dif n = q at hlow hhigh hq
  have hshards : shards n ≤ n := by rw [shards]; omega
  rw [← Finset.card_range (shards n)]
  refine Finset.card_le_card_of_injOn (fun k => if k ≤ q then q - k else q + n - k) ?_ ?_
  · intro k hk
    have hk : k < shards n := Finset.mem_range.mp hk
    refine Finset.mem_filter.mpr ⟨Finset.mem_range.mpr (by dsimp only; split <;> omega), ?_⟩
    refine inMySpace_of hn ?_
    dsimp only
    split
    next hle =>
      refine Or.inl ⟨(Nat.mul_le_mul_right _ (Nat.sub_le q k)).trans hlow, hhigh.trans_le ?_⟩
      exact Nat.mul_le_mul_right _ (by omega)
    next hlt =>
      have hend := Nat.mul_le_mul_right (dif n) (show n + (q + 1) ≤ q + n - k + shards n by omega)
      rw [Nat.add_mul] at hend
      exact Or.inr (by omega)
  · intro k hk k' hk' heq
    have hk : k < shards n := Finset.mem_range.mp hk
    have hk' : k' < shards n := Finset.mem_range.mp hk'
    dsimp only at heq
    split at heq <;> split at heq <;> omega

section Positions
variable {validators : Finset PeerId} {u v : PeerId}

theorem getPeerPosition_erase :
    getPeerPosition (validators.erase v) v = (validators.filter (· < v)).card := by
  have hsplit := Finset.card_filter_add_card_filter_not (s := validators.erase v) (v < ·)
  have hbelow : (validators.erase v).filter (¬ v < ·) = validators.filter (· < v) := by
    ext w
    simp only [Finset.mem_filter, Finset.mem_erase]
    grind
  rw [hbelow] at hsplit
  rw [getPeerPosition, getPeerCount]
  omega

theorem getPeerPosition_lt (hu : u ∈ validators) (huv : u < v) :
    getPeerPosition (validators.erase u) u < getPeerPosition (validators.erase v) v := by
  rw [getPeerPosition_erase, getPeerPosition_erase]
  refine Finset.card_lt_card (Finset.ssubset_iff_of_subset ?_ |>.mpr ⟨u, ?_, ?_⟩)
  · exact Finset.monotone_filter_right _ fun w _ hw => lt_trans hw huv
  · exact Finset.mem_filter.mpr ⟨hu, huv⟩
  · exact fun hmem => lt_irrefl u (Finset.mem_filter.mp hmem).2

theorem getPeerPosition_lt_card (hv : v ∈ validators) :
    getPeerPosition (validators.erase v) v < validators.card := by
  rw [getPeerPosition_erase]
  exact Finset.card_lt_card (Finset.filter_ssubset.mpr ⟨v, hv, lt_irrefl v⟩)

theorem image_getPeerPosition :
    validators.image (fun v => getPeerPosition (validators.erase v) v) =
      Finset.range validators.card := by
  refine Finset.eq_of_subset_of_card_le (fun p hp => ?_) (le_of_eq ?_)
  · obtain ⟨v, hv, rfl⟩ := Finset.mem_image.mp hp
    exact Finset.mem_range.mpr (getPeerPosition_lt_card hv)
  · rw [Finset.card_range, Finset.card_image_of_injOn]
    intro u hu v hv heq
    by_contra hne
    obtain hlt | hlt := Nat.lt_or_gt_of_ne hne
    · exact (getPeerPosition_lt hu hlt).ne heq
    · exact (getPeerPosition_lt hv hlt).ne' heq

end Positions

open Classical in
/-- More than a third of the validators do not shard the sender out. The peer count and the position
are bytes. A single validator shards some senders out. -/
theorem sender_kept {P : Type} [DecidableEq P] (validators : Finset PeerId)
    (hmax : validators.card ≤ 255) (store : PeerId → TransactionStore P)
    (txn : SignedTransaction P) (rankingScore : ℕ) (sequenceInfo : AccountSequenceInfo)
    (hsequence : sequenceInfo.minSeq ≤ txn.sequenceNumber) (timelineState : TimelineState)
    (expirationTime choice : ℕ) :
    let answer v := addShardedTxn (store v) txn rankingScore sequenceInfo timelineState
      (getPeerCount (validators.erase v) % 256 + 1) (getPeerPosition (validators.erase v) v % 256)
      expirationTime choice
    (1 < validators.card → validators.card / 3 + 1 ≤
      (validators.filter fun v => answer v ≠ some (.error .unknownStatus, store v)).card) ∧
    (validators.card = 1 → ∀ v ∈ validators,
      answer v = some (.error .unknownStatus, store v) ↔ shard txn.sender = 255) := by
  intro answer
  have hval : shard txn.sender < 256 := Nat.mod_lt _ (by decide)
  have hanswer : ∀ v ∈ validators, answer v = some (.error .unknownStatus, store v) ↔
      ¬ inMySpace validators.card (getPeerPosition (validators.erase v) v) (shard txn.sender) := by
    intro v hv
    have hposition := getPeerPosition_lt_card hv
    have hcount : getPeerCount (validators.erase v) % 256 + 1 = validators.card := by
      rw [getPeerCount, Finset.card_erase_of_mem hv]
      omega
    dsimp only [answer]
    rw [hcount, Nat.mod_eq_of_lt (by omega), addShardedTxn, if_neg (Nat.not_lt.mpr hsequence)]
    split
    next hout => simpa using hout
    next hin => cases (store v).insert _ choice <;> simp_all
  constructor
  · intro hcard
    refine (shards_le_card_positions hcard hval).trans ?_
    rw [← image_getPeerPosition, Finset.filter_image]
    refine Finset.card_image_le.trans (Finset.card_le_card fun v hv => ?_)
    obtain ⟨hv, hspace⟩ := Finset.mem_filter.mp hv
    exact Finset.mem_filter.mpr ⟨hv, fun hout => (hanswer v hv).mp hout hspace⟩
  · intro hcard v hv
    rw [hanswer v hv, hcard]
    simp [inMySpace]
    omega

open Classical in
/-- A single validator shards the account 255 out, and one of four validators does not. -/
theorem sender_kept_255 : ∃ s : TransactionStore Unit,
    let answer := addShardedTxn s ⟨255, 0, (), 5, 3, 60, 10, 0⟩ 3 (.sequential 0) .notReady
    answer 1 0 10 0 = some (.error .unknownStatus, s) ∧
      ∃ position, answer 4 position 10 0 ≠ some (.error .unknownStatus, s) := by
  obtain ⟨s, -⟩ : ∃ s, TransactionStore.new (P := Unit) ⟨1, 1, 1, 1, [0]⟩ 0 = some s := ⟨_, rfl⟩
  have hkept := fun validators hmax => sender_kept validators hmax (fun _ => s)
    ⟨255, 0, (), 5, 3, 60, 10, 0⟩ 3 (.sequential 0) (by decide) .notReady 10 0
  obtain ⟨v, hv⟩ := Finset.card_pos.mp
    ((Nat.succ_pos _).trans_le ((hkept {1, 2, 3, 4} (by decide)).1 (by decide)))
  obtain ⟨hv, hanswer⟩ := Finset.mem_filter.mp hv
  simp only [getPeerCount, Finset.card_erase_of_mem hv] at hanswer
  exact ⟨s, ((hkept {1} (by decide)).2 rfl 1 (by decide)).mpr (by decide), _, hanswer⟩

end Anthemius.Mempool

import Anthemius.MempoolRuns

/-!
# Refused insertions

An older version, a parked transaction and committed transactions are removed before the last
check. Which of them are lost when the insertion is refused depends on the room in the store.
-/
namespace Anthemius.Mempool

namespace TransactionStore
variable {P : Type} {s s' : TransactionStore P} {world : MempoolTransaction P → Prop}
  {txn : MempoolTransaction P} {choice : ℕ} {status : MempoolStatus}

/-- The transaction has the number of the account or follows a ready transaction. -/
def ReadyToInsert (s : TransactionStore P) (txn : MempoolTransaction P) : Prop :=
  txn.sequenceNumber = txn.accountSequenceNumberType.minSeq ∨
    ∃ n, txn.sequenceNumber = n + 1 ∧ (txn.getSender, n) ∈ s.ready

theorem Indexed.checkTxnReady_iff (h : s.Consistent world) {ready : Bool}
    (hcheck : s.checkTxnReady txn txn.accountSequenceNumberType.minSeq = some ready) :
    ready = true ↔ s.ReadyToInsert txn := by
  rw [checkTxnReady] at hcheck
  split_ifs at hcheck with hequal hzero
  · cases hcheck
    exact ⟨fun _ => Or.inl hequal, fun _ => rfl⟩
  · obtain ⟨n, hn⟩ := Nat.exists_eq_succ_of_ne_zero hzero
    have hready : ((s.getMempoolTxn (txn.getSender, n)).any (·.isReady)) = true ↔
        (txn.getSender, n) ∈ s.ready := by
      rw [Option.any_eq_true]
      constructor
      · rintro ⟨t, hget, ht⟩
        obtain ⟨hmem, hpointer⟩ := h.getMempoolTxn_eq_some.mp hget
        exact ⟨t, hmem, hpointer, ht⟩
      · rintro ⟨t, hmem, hpointer, ht⟩
        exact ⟨t, h.getMempoolTxn_eq_some.mpr ⟨hmem, hpointer⟩, ht⟩
    rw [hn, Nat.succ_sub_one] at hcheck
    cases hcheck
    rw [hready]
    constructor
    · exact fun hin => Or.inr ⟨n, hn, hin⟩
    · rintro (heq | ⟨m, hm, hin⟩)
      · exact absurd heq hequal
      · rw [hn] at hm
        rw [Nat.succ.inj hm]
        exact hin

/-- Without the older version there is room for the transaction, and a new transaction does not
need the room of a parked one. -/
def HasRoom (s : TransactionStore P) (txn : MempoolTransaction P) : Prop :=
  s.CanReplace txn ∧
    (txn.pointer ∉ s.stored → s.isFull → s.ReadyToInsert txn → s.parked = ∅)

/-- The stored transactions are the same, up to those of the account below its number. -/
def KeepsOthers (s s' : TransactionStore P) (txn : MempoolTransaction P) : Prop :=
  ∀ t : MempoolTransaction P,
    ¬ (t.getSender = txn.getSender ∧ t.sequenceNumber < txn.accountSequenceNumberType.minSeq) →
    (t ∈ s'.transactions ↔ t ∈ s.transactions)

/-- Neither the transaction nor a parked one is below the number of the account. -/
def NoneBelow (s : TransactionStore P) (txn : MempoolTransaction P) : Prop :=
  ∀ p, p = txn.pointer ∨ p ∈ s.parked →
    p ∉ below txn.getSender txn.accountSequenceNumberType.minSeq

theorem keepsOthers_of_removes
    (h : s.Removes s' (below txn.getSender txn.accountSequenceNumberType.minSeq)) :
    s.KeepsOthers s' txn := by
  intro t ht
  rw [h.transactions]
  exact and_iff_left ht

theorem exists_checkTxnReady (hs : s.insertNew txn choice = some (status, s'))
    (hfull : s.isFull = true) :
    ∃ ready, s.checkTxnReady txn txn.accountSequenceNumberType.minSeq = some ready := by
  obtain ⟨⟨full, room⟩, hroom, -⟩ := Option.bind_eq_some_iff.mp hs
  obtain ⟨ready, hready, -⟩ := Option.map_eq_some_iff.mp hroom
  rw [if_pos hfull] at hready
  exact ⟨ready, hready⟩

theorem Indexed.roomFor_eq (h : s.Consistent world)
    (hroom : s.isFull → s.ReadyToInsert txn → s.parked = ∅) : s.roomFor txn choice = s := by
  rw [TransactionStore.roomFor]
  split
  next hevicts =>
    have hempty := hroom hevicts.1 ((h.checkTxnReady_iff hevicts.2).mp rfl)
    obtain ⟨-, ⟨p, hp, -⟩ | ⟨-, heq⟩⟩ := h.evict choice
    · rw [hempty] at hp
      exact absurd hp (Set.notMem_empty p)
    · exact heq
  next => rfl

/-- Nothing but committed transactions is lost if there is room. -/
theorem Indexed.keepsOthers (h : s.Consistent world) (hbounded : s.Bounded) (hroom : s.HasRoom txn)
    {s₁ : TransactionStore P} (hreplaces : s.Replaces txn s₁)
    (hs : s₁.insertNew txn choice = some (status, s')) (hstatus : status.code ≠ .accepted) :
    s.KeepsOthers s' txn := by
  cases hreplaces with
  | fresh hfresh =>
    have heq : s.roomFor txn choice = s := h.roomFor_eq (hroom.2 hfresh)
    obtain ⟨-, -, rfl⟩ | ⟨-, -, -, rfl⟩ | ⟨hcode, -⟩ := insertNew_cases hs
    · rw [heq]
      exact fun _ _ => Iff.rfl
    · rw [TransactionStore.cleanFor, heq]
      exact keepsOthers_of_removes (h.removes_clean _ _)
    · exact absurd hcode hstatus
  | older current hget hupdates =>
    -- without the older version the transaction is accepted
    obtain ⟨ht, hpointer⟩ := h.getMempoolTxn_eq_some.mp hget
    have hfull := hroom.1.not_isFull h hbounded hget hupdates
    have heq : (s.discard current).roomFor txn choice = s.discard current :=
      roomFor_of_not_isFull hfull
    obtain ⟨-, hfull', -⟩ | ⟨-, -, hmany, -⟩ | ⟨hcode, -⟩ := insertNew_cases hs
    · rw [heq] at hfull'
      exact absurd hfull' hfull
    · have hdiscard := h.discard ht
      rw [TransactionStore.cleanFor, heq] at hmany
      have hremoves := (h.removes_discard ht).trans
        (hdiscard.removes_clean txn.getSender txn.accountSequenceNumberType.minSeq)
      have hkept := hbounded.not_mem_of_length_le (p := txn.pointer) hremoves
        (hdiscard.clean _ _) hmany ⟨current, ht, hpointer⟩
      exact absurd (Or.inl hpointer.symm) hkept
    · exact absurd hcode hstatus

theorem Indexed.exists_lost (h : s.Consistent world) (hroom : ¬ s.HasRoom txn)
    {s₁ : TransactionStore P} (hreplaces : s.Replaces txn s₁)
    (hs : s₁.insertNew txn choice = some (status, s')) (hstatus : status.code ≠ .accepted) :
    ∃ p ∈ s.stored, p ∉ s'.stored ∧ (p = txn.pointer ∨ p ∈ s.parked) := by
  obtain ⟨hindexed, hremoves⟩ := hreplaces.removes h
  have hsub : s'.stored ⊆ (s₁.roomFor txn choice).stored := by
    obtain ⟨hroomed, -⟩ := hindexed.roomFor txn choice
    obtain ⟨-, -, rfl⟩ | ⟨-, -, -, rfl⟩ | ⟨hcode, -⟩ := insertNew_cases hs
    · exact subset_rfl
    · exact (hroomed.removes_clean _ _).shrinks.subset
    · exact absurd hcode hstatus
  cases hreplaces with
  | fresh hfresh =>
    have hparked : s.isFull = true ∧ s.ReadyToInsert txn ∧ s.parked ≠ ∅ := by
      by_contra hnot
      refine hroom ⟨fun current hget => ?_, fun _ hfull hready => ?_⟩
      · exact absurd (getMempoolTxn_eq_none.mpr hfresh) (by rw [hget]; exact Option.some_ne_none _)
      · by_contra hne
        exact hnot ⟨hfull, hready, hne⟩
    obtain ⟨hfull, hready, hne⟩ := hparked
    obtain ⟨ready, hcheck⟩ := exists_checkTxnReady hs hfull
    obtain rfl := (h.checkTxnReady_iff hcheck).mpr hready
    rw [TransactionStore.roomFor, if_pos ⟨hfull, hcheck⟩] at hsub
    obtain ⟨-, ⟨p, hp, hevicts⟩ | ⟨hempty, -⟩⟩ := h.evict choice
    · refine ⟨p, h.parked_subset_stored hp, fun hin => ?_, .inr hp⟩
      have hleft := hsub hin
      rw [hevicts.stored] at hleft
      exact hleft.2 rfl
    · exact absurd hempty hne
  | older current hget hupdates =>
    obtain ⟨ht, hpointer⟩ := h.getMempoolTxn_eq_some.mp hget
    refine ⟨txn.pointer, ⟨current, ht, hpointer⟩, fun hin => ?_, .inl rfl⟩
    obtain ⟨-, out, -, hevicts⟩ := hindexed.roomFor txn choice
    have hleft := hevicts.shrinks.subset (hsub hin)
    rw [hremoves.stored] at hleft
    exact hleft.2 rfl

theorem not_keepsOthers_of_lost {p : TxnPointer} (hp : p ∈ s.stored) (hlost : p ∉ s'.stored)
    (hnot : p ∉ below txn.getSender txn.accountSequenceNumberType.minSeq) :
    ¬ s.KeepsOthers s' txn := by
  obtain ⟨t, ht, rfl⟩ := hp
  exact fun hkeeps => hlost ⟨t, (hkeeps t hnot).mpr ht, rfl⟩

/-- A refused insertion keeps the transactions if there is room. If there is none, it loses the
older version or a parked transaction, which it should keep unless that is below the number of the
account. -/
theorem Reaches.insert_refused [DecidableEq P] (h : Reaches (fun _ _ => True) s)
    (hs : s.insert txn choice = some (status, s')) (hstatus : status.code ≠ .accepted) :
    (s.HasRoom txn → s.KeepsOthers s' txn) ∧
      (¬ s.HasRoom txn → ∃ p ∈ s.stored, p ∉ s'.stored) ∧
      (¬ s.HasRoom txn → s.NoneBelow txn → ¬ s.KeepsOthers s' txn) := by
  obtain ⟨hindexed, hbounded⟩ := h.consistent fun _ call _ => call.inserts_any
  obtain ⟨heq, current, hget, hnot⟩ | ⟨s₁, hreplaces, hnew⟩ := insert_cases hs
  · have hroom : s.HasRoom txn := by
      refine ⟨fun current' hget' hupdates => ?_, fun hfresh => ?_⟩
      · rw [hget] at hget'
        cases hget'
        exact absurd hupdates hnot
      · rw [getMempoolTxn_eq_none.mpr hfresh] at hget
        cases hget
    rw [heq]
    exact ⟨fun _ _ _ => Iff.rfl, fun hnone => absurd hroom hnone, fun hnone => absurd hroom hnone⟩
  · have hlost := fun hroom => hindexed.exists_lost hroom hreplaces hnew hstatus
    refine ⟨fun hroom => hindexed.keepsOthers hbounded hroom hreplaces hnew hstatus,
      fun hroom => ?_, fun hroom hnone => ?_⟩
    · obtain ⟨p, hp, hp', -⟩ := hlost hroom
      exact ⟨p, hp, hp'⟩
    · obtain ⟨p, hp, hp', hwhich⟩ := hlost hroom
      exact not_keepsOthers_of_lost hp hp' (hnone p hwhich)

open SmallPool

/-- There is no place for a third transaction, and nothing is parked. -/
theorem Reaches.insert_refused_full : ∃ s s' : TransactionStore Unit, ∃ status,
    Reaches (fun _ _ => True) s ∧
      s.insert (transfer 2 3 .notReady 0) 0 = some (status, s') ∧ status.code = .mempoolIsFull ∧
      s.KeepsOthers s' (transfer 2 3 .notReady 0) := by
  have hreaches : Reaches (fun _ _ => True) _ :=
    ((Reaches.new config 1 rfl).perform (.insert (transfer 1 3 .notReady 0) 0) trivial
      rfl).perform (.insert (transfer 0 3 .notReady 0) 0) trivial rfl
  refine ⟨_, _, _, hreaches, rfl, rfl, (hreaches.insert_refused rfl ?_).1 ⟨?_, ?_⟩⟩
  · exact MempoolStatusCode.noConfusion
  · intro current hget
    cases hget
  · intro _ _ _
    refine Set.eq_empty_of_forall_notMem ?_
    rintro p ⟨seqNums, hmem, -⟩
    cases hmem

/-- The second transaction of the account takes all the room. -/
def SmallPool.large : MempoolTransaction Unit :=
  { transfer 1 3 .notReady 0 with
    txn := { (transfer 1 3 .notReady 0).txn with rawTxnBytesLen := 100 } }

theorem SmallPool.refuses_update : ∃ s s' : TransactionStore Unit, ∃ status,
    Reaches (fun _ _ => True) s ∧
      s.insert (transfer 0 4 .notReady 0) 0 = some (status, s') ∧ status.code = .mempoolIsFull ∧
      s.transactions =
        [large.withState (.ready 2), (transfer 0 3 .notReady 0).withState (.ready 1)] ∧
      s'.transactions = [large.withState (.ready 2)] :=
  ⟨_, _, _, ((Reaches.new config 1 rfl).perform (.insert (transfer 0 3 .notReady 0) 0)
    trivial rfl).perform (.insert large 0) trivial rfl, rfl, rfl, rfl, rfl⟩

/-- An update with a higher price is refused, and the older version is lost. -/
theorem Reaches.insert_refused_fails : ∃ s s' : TransactionStore Unit, ∃ status,
    Reaches (fun _ _ => True) s ∧
      s.insert (transfer 0 4 .notReady 0) 0 = some (status, s') ∧ status.code = .mempoolIsFull ∧
      ¬ s.KeepsOthers s' (transfer 0 4 .notReady 0) := by
  obtain ⟨s, s', status, hreaches, hs, hcode, hbefore, hafter⟩ := refuses_update
  refine ⟨s, s', status, hreaches, hs, hcode, fun hkeeps => ?_⟩
  have hmem := (hkeeps ((transfer 0 3 .notReady 0).withState (.ready 1))
    fun hbelow => Nat.not_lt_zero _ hbelow.2).mpr (by rw [hbefore]; simp)
  rw [hafter, List.mem_singleton] at hmem
  exact absurd hmem (by decide)

end TransactionStore

end Anthemius.Mempool

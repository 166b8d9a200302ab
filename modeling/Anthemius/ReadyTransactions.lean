import Anthemius.MempoolRuns

/-!
# Ready and parked transactions

The queue has the transactions of each account from its sequence number up to the first gap, and
the others are parked.
-/
namespace Anthemius.Mempool

namespace TransactionStore
variable {P : Type} {s s' : TransactionStore P} {world : MempoolTransaction P → Prop}
  {p : TxnPointer}

/-- All sequence numbers of the account from the first to the last are stored. -/
def InRun (s : TransactionStore P) (address : AccountAddress) (first last : ℕ) : Prop :=
  ∀ k, first ≤ k → k ≤ last → (address, k) ∈ s.stored

/-- The stored transaction is where it belongs. -/
structure PlacedAt (s : TransactionStore P) (p : TxnPointer) (first : ℕ) : Prop where
  number : s.sequenceNumbers p.1 = some first
  first_le : first ≤ p.2
  queued : p ∈ s.queued ↔ s.InRun p.1 first p.2
  parked : p ∈ s.parked ↔ ¬ s.InRun p.1 first p.2

structure Placed (s : TransactionStore P) : Prop where
  placed : ∀ p ∈ s.stored, ∃ first, s.PlacedAt p first
  ready : s.ready ⊆ s.queued

theorem Placed.not_parked (h : s.Placed) (hp : p ∈ s.queued) : p ∉ s.parked := by
  obtain ⟨first, hplaced⟩ := h.placed p (queued_subset_stored hp)
  exact fun hparked => hplaced.parked.mp hparked (hplaced.queued.mp hp)

/-- In front of a transaction in the queue everything from the account's number on is in it. -/
theorem Placed.queued_of_le (h : s.Placed) {address : AccountAddress} {first k n : ℕ}
    (hnumber : s.sequenceNumbers address = some first) (hp : (address, n) ∈ s.queued)
    (hk : first ≤ k) (hkn : k ≤ n) : (address, k) ∈ s.queued := by
  obtain ⟨first', hplaced⟩ := h.placed _ (queued_subset_stored hp)
  obtain rfl := Option.some.inj (hplaced.number.symm.trans hnumber)
  have hrun := hplaced.queued.mp hp
  obtain ⟨first'', hplaced'⟩ := h.placed (address, k) (hrun k hk hkn)
  obtain rfl := Option.some.inj (hplaced'.number.symm.trans hnumber)
  exact hplaced'.queued.mpr fun j hj hjk => hrun j hj (hjk.trans hkn)

/-! ## Removals -/

theorem PlacedAt.removes {out : Set TxnPointer} {first : ℕ} (hplaced : s.PlacedAt p first)
    (hremoves : s.Removes s' out) (hp : p ∈ s'.stored)
    (hout : p ∈ s.queued → ∀ k, first ≤ k → k ≤ p.2 → (p.1, k) ∉ out) : s'.PlacedAt p first := by
  have hsame : s'.InRun p.1 first p.2 ↔ s.InRun p.1 first p.2 := by
    refine ⟨fun hrun k hk hkp => hremoves.shrinks.subset (hrun k hk hkp), fun hrun k hk hkp => ?_⟩
    rw [hremoves.stored]
    exact ⟨hrun k hk hkp, hout (hplaced.queued.mpr hrun) k hk hkp⟩
  have hnot : p ∉ out := by
    rw [hremoves.stored] at hp
    exact hp.2
  refine ⟨?_, hplaced.first_le, ?_, ?_⟩
  · rw [hremoves.shrinks.kept p.1 ⟨p, hp, rfl⟩]
    exact hplaced.number
  · rw [hremoves.queued, hsame, ← hplaced.queued]
    exact and_iff_left hnot
  · rw [hremoves.parked, hsame, ← hplaced.parked]
    exact and_iff_left hnot

/-- A removal does not cut a run if what it takes from the queue is behind what it leaves. -/
theorem Placed.removes {out : Set TxnPointer} (h : s.Placed) (hremoves : s.Removes s' out)
    (hout : ∀ p ∈ s.queued, p ∉ out → ∀ q ∈ out, q ∈ s.queued → q.1 = p.1 → p.2 < q.2) :
    s'.Placed := by
  refine ⟨fun p hp => ?_, ?_⟩
  · have hp' := hp
    rw [hremoves.stored] at hp'
    obtain ⟨first, hplaced⟩ := h.placed p hp'.1
    refine ⟨first, hplaced.removes hremoves hp fun hqueued k hk hkp hin => ?_⟩
    have hlt := hout p hqueued hp'.2 (p.1, k) hin (h.queued_of_le hplaced.number hqueued hk hkp) rfl
    exact absurd hkp (Nat.not_le.mpr hlt)
  · rw [hremoves.ready, hremoves.queued]
    exact Set.sdiff_subset_sdiff_left h.ready

theorem Placed.removes_parked {out : Set TxnPointer} (h : s.Placed) (hremoves : s.Removes s' out)
    (hout : out ⊆ s.parked) : s'.Placed :=
  h.removes hremoves fun _ _ _ _ hq hqueued => absurd (hout hq) (h.not_parked hqueued)

/-- The last transaction of a run can be rejected. -/
theorem Placed.removes_last (h : s.Placed) {address : AccountAddress} {n : ℕ}
    (hremoves : s.Removes s' {(address, n)})
    (hlast : (address, n) ∈ s.queued → (address, n + 1) ∉ s.stored) : s'.Placed := by
  refine h.removes hremoves ?_
  rintro ⟨_, m⟩ hp hne q rfl hq rfl
  by_contra hle
  obtain ⟨first, hplaced⟩ := h.placed _ (queued_subset_stored hq)
  have hfirst : first ≤ n := hplaced.first_le
  have hlt : n + 1 ≤ m := by
    have hmn : m ≠ n := fun heq => hne (congrArg (Prod.mk address) heq)
    change ¬ m < n at hle
    omega
  exact hlast hq (queued_subset_stored (h.queued_of_le hplaced.number hp (by omega) hlt))

/-! ## Collections -/

theorem Placed.collects {keys : Set TxnPointer} (h : s.Placed) (hcollects : s.Collects s' keys)
    (hkeys : keys ⊆ s.stored) : s'.Placed := by
  refine ⟨fun p hp => ?_, fun p hp => ?_⟩
  · obtain ⟨hstored, hnot⟩ := (hcollects.stored p).mp hp
    obtain ⟨first, hplaced⟩ := h.placed p hstored
    -- the new run ends in front of the first key of the account
    have hrun : s'.InRun p.1 first p.2 ↔ s.InRun p.1 first p.2 ∧ ¬ Behind keys p := by
      constructor
      · intro hrun
        refine ⟨fun k hk hkp => ((hcollects.stored _).mp (hrun k hk hkp)).1, ?_⟩
        rintro ⟨key, hkey, haddress, hlt⟩
        obtain ⟨first', hplaced'⟩ := h.placed key (hkeys hkey)
        have hsame : first' = first := by
          have hnumber := hplaced'.number
          rw [haddress, hplaced.number] at hnumber
          exact (Option.some.inj hnumber).symm
        have hle : first ≤ key.2 := hsame ▸ hplaced'.first_le
        refine ((hcollects.stored _).mp (hrun key.2 hle hlt.le)).2 ?_
        rw [← haddress]
        exact hkey
      · rintro ⟨hrun, hbehind⟩ k hk hkp
        refine (hcollects.stored _).mpr ⟨hrun k hk hkp, fun hkey => ?_⟩
        obtain heq | hlt := Nat.eq_or_lt_of_le hkp
        · subst heq
          exact hnot hkey
        · exact hbehind ⟨(p.1, k), hkey, rfl, hlt⟩
    refine ⟨first, ?_, hplaced.first_le, ?_, ?_⟩
    · rw [hcollects.shrinks.kept p.1 ⟨p, hp, rfl⟩]
      exact hplaced.number
    · rw [hcollects.queued, hrun, hplaced.queued]
      tauto
    · rw [hcollects.parked, hrun, hplaced.parked]
      tauto
  · obtain ⟨hready, hrest⟩ := (hcollects.ready p).mp hp
    exact (hcollects.queued p).mpr ⟨h.ready hready, hrest⟩

/-! ## Looking at an account -/

/-- The account can be looked at from the number on: nothing is stored below it, and nothing is in
the queue behind a gap. -/
structure Prepared (s : TransactionStore P) (address : AccountAddress) (first : ℕ) : Prop where
  number : s.HasTransactions address → s.sequenceNumbers address = some first
  first_le : ∀ n, (address, n) ∈ s.stored → first ≤ n
  queued : ∀ n, (address, n) ∈ s.queued → s.InRun address first n
  others : ∀ p ∈ s.stored, p.1 ≠ address → ∃ first, s.PlacedAt p first
  ready : s.ready ⊆ s.queued

theorem Prepared.processes {address : AccountAddress} {first last : ℕ}
    (h : s.Prepared address first) (hprocesses : s.Processes s' address first last) :
    s'.Placed := by
  have hstored := hprocesses.reorders.stored
  have hsame : ∀ a k n, s'.InRun a k n ↔ s.InRun a k n := by
    intro a k n
    rw [InRun, InRun, hstored]
  have hbefore : ∀ n, (address, n) ∈ s.queued → n < last := by
    intro n hn
    by_contra hle
    exact hprocesses.gap (h.queued n hn last hprocesses.first_le (Nat.not_lt.mp hle))
  refine ⟨fun p hp => ?_, fun p hp => ?_⟩
  · rw [hstored] at hp
    by_cases haddress : p.1 = address
    · obtain ⟨address', n⟩ := p
      change address' = address at haddress
      subst haddress
      have hfirst := h.first_le n hp
      have hne : n ≠ last := by
        rintro rfl
        exact hprocesses.gap hp
      have hrun : s.InRun address' first n ↔ n < last := by
        constructor
        · intro hrun
          by_contra hle
          exact hprocesses.gap (hrun last hprocesses.first_le (Nat.not_lt.mp hle))
        · exact fun hlt k hk hkn => hprocesses.stored k hk (lt_of_le_of_lt hkn hlt)
      have hmem : (address', n) ∈ run address' first last ↔ n < last := by
        change address' = address' ∧ first ≤ n ∧ n < last ↔ _
        tauto
      refine ⟨first, ?_, hfirst, ?_, ?_⟩
      · rw [hprocesses.reorders.numbers]
        exact h.number ⟨_, hp, rfl⟩
      · rw [hsame, hrun, hprocesses.queued, Set.mem_union, hmem]
        exact ⟨fun hor => hor.elim (hbefore n) id, Or.inr⟩
      · rw [hsame, hrun, hprocesses.parked, Set.mem_union, Set.mem_sdiff, hmem]
        constructor
        · rintro (⟨-, hnot⟩ | ⟨-, -, hlt, -⟩)
          · exact hnot
          · exact Nat.lt_asymm hlt
        · intro hnot
          have hlt : last < n := by omega
          refine Or.inr ⟨hp, rfl, hlt, fun hready => ?_⟩
          exact hnot (hbefore n (h.ready hready))
    · obtain ⟨first', hplaced⟩ := h.others p hp haddress
      have hmem : p ∉ run address first last := fun hin => haddress hin.1
      refine ⟨first', ?_, hplaced.first_le, ?_, ?_⟩
      · rw [hprocesses.reorders.numbers]
        exact hplaced.number
      · rw [hsame, ← hplaced.queued, hprocesses.queued]
        exact or_iff_left hmem
      · rw [hsame, ← hplaced.parked, hprocesses.parked]
        constructor
        · rintro (⟨hparked, -⟩ | ⟨-, hin, -⟩)
          · exact hparked
          · exact absurd hin haddress
        · exact fun hparked => Or.inl ⟨hparked, hmem⟩
  · rw [hprocesses.queued]
    by_cases hin : p ∈ run address first last
    · exact Or.inr hin
    · exact Or.inl (h.ready ((hprocesses.ready p hin).mp hp))

/-- What the queue has behind the new number stays in the queue. -/
theorem Placed.commits {account : AccountAddress} {sequenceNumber : ℕ} (h : s.Placed)
    (hcommits : s.Commits s' account (s.committedNumber account sequenceNumber)) : s'.Placed := by
  obtain ⟨cleaned, last, hremoves, hprocesses⟩ := hcommits
  refine Prepared.processes ⟨fun hhas => ?_, fun n hn => ?_, fun n hn k hk hkn => ?_,
    fun p hp hne => ?_, ?_⟩ hprocesses
  · rw [hremoves.shrinks.kept account hhas]
    exact withNumber_self
  · rw [hremoves.stored] at hn
    exact Nat.not_lt.mp fun hlt => hn.2 ⟨rfl, hlt⟩
  · rw [hremoves.queued] at hn
    have hn : (account, n) ∈ s.queued := hn.1
    obtain ⟨first, hplaced⟩ := h.placed _ (queued_subset_stored hn)
    have hle : first ≤ k := by
      refine le_trans ?_ hk
      rw [committedNumber, hplaced.number]
      exact le_max_left ..
    rw [hremoves.stored]
    refine ⟨queued_subset_stored (h.queued_of_le hplaced.number hn hle hkn), fun hbelow => ?_⟩
    exact absurd hk (Nat.not_le.mpr hbelow.2)
  · obtain ⟨first, hplaced⟩ := h.placed p (hremoves.shrinks.subset hp)
    have hplaced' : (s.withNumber account (s.committedNumber account sequenceNumber)).PlacedAt p
        first :=
      ⟨(withNumber_of_ne hne).trans hplaced.number, hplaced.first_le, hplaced.queued,
        hplaced.parked⟩
    exact ⟨first, hplaced'.removes hremoves hp fun _ k _ _ hbelow => hne hbelow.1⟩
  · rw [hremoves.ready, hremoves.queued]
    exact Set.sdiff_subset_sdiff_left h.ready

theorem Placed.stores {cleaned stored : TransactionStore P} {txn : MempoolTransaction P}
    {out : Set TxnPointer} {last : ℕ} (h : s.Placed)
    (hremoves : s.Removes cleaned ({txn.pointer} ∪
      (out ∪ below txn.getSender txn.accountSequenceNumberType.minSeq)))
    (hout : out ⊆ s.parked) (hstores : cleaned.Stores stored txn)
    (hprocesses : stored.Processes s' txn.getSender txn.accountSequenceNumberType.minSeq last)
    (hready : txn.isReady = false)
    (hbelow : txn.accountSequenceNumberType.minSeq ≤ txn.sequenceNumber)
    (hnumber : ∀ number, s.HasTransactions txn.getSender →
      s.sequenceNumbers txn.getSender = some number →
      number ≤ txn.accountSequenceNumberType.minSeq) : s'.Placed := by
  have hnot : ∀ p ∈ s.queued, p ∉ out := fun p hp hin => h.not_parked hp (hout hin)
  refine Prepared.processes ⟨fun _ => ?_, fun n hn => ?_, fun n hn k hk hkn => ?_,
    fun p hp hne => ?_, fun p hp => ?_⟩ hprocesses
  · rw [hstores.numbers]
    exact Function.update_self ..
  · rw [hstores.stored, hremoves.stored] at hn
    obtain heq | ⟨-, hn⟩ := hn
    · have hseq : n = txn.sequenceNumber := congrArg Prod.snd heq
      rw [hseq]
      exact hbelow
    · exact Nat.not_lt.mp fun hlt => hn (Or.inr (Or.inr ⟨rfl, hlt⟩))
  · rw [hstores.queued, hremoves.queued] at hn
    obtain ⟨hn, -⟩ := hn
    have hstored := queued_subset_stored hn
    obtain ⟨first, hplaced⟩ := h.placed _ hstored
    have hfirst := hnumber first ⟨_, hstored, rfl⟩ hplaced.number
    have hqueued := h.queued_of_le hplaced.number hn (hfirst.trans hk) hkn
    rw [hstores.stored, hremoves.stored]
    by_cases heq : (txn.getSender, k) = txn.pointer
    · exact Or.inl heq
    · refine Or.inr ⟨queued_subset_stored hqueued, ?_⟩
      rintro (hin | hin | hin)
      · exact heq hin
      · exact hnot _ hqueued hin
      · exact absurd hk (Nat.not_le.mpr hin.2)
  · have hp' : p ∈ cleaned.stored := by
      rw [hstores.stored] at hp
      refine hp.resolve_left ?_
      rintro rfl
      exact hne rfl
    obtain ⟨first, hplaced⟩ := h.placed p (hremoves.shrinks.subset hp')
    have hcleaned : cleaned.PlacedAt p first := by
      refine hplaced.removes hremoves hp' fun hqueued k hk hkp => ?_
      rintro (hin | hin | hin)
      · exact hne (congrArg Prod.fst hin)
      · exact hnot _ (h.queued_of_le hplaced.number hqueued hk hkp) hin
      · exact hne hin.1
    have hsame : stored.InRun p.1 first p.2 ↔ cleaned.InRun p.1 first p.2 := by
      refine forall_congr' fun k => imp_congr_right fun _ => imp_congr_right fun _ => ?_
      rw [hstores.stored]
      refine ⟨fun hor => hor.resolve_left fun heq => hne (congrArg Prod.fst heq), Or.inr⟩
    refine ⟨first, ?_, hcleaned.first_le, ?_, ?_⟩
    · rw [hstores.numbers, Function.update_of_ne hne]
      exact hcleaned.number
    · rw [hstores.queued, hsame]
      exact hcleaned.queued
    · rw [hstores.parked, hsame]
      exact hcleaned.parked
  · rw [hstores.mem_ready hready, hremoves.ready] at hp
    rw [hstores.queued, hremoves.queued]
    exact ⟨h.ready hp.1, hp.2⟩

/-! ## Runs -/

theorem Placed.inserts {s₁ : TransactionStore P} {txn : MempoolTransaction P}
    {status : MempoolStatus} (h : s.Placed) (hbounded : s.Bounded) (hbefore : s.Consistent world)
    (hafter : s'.Consistent world) (hreplaces : s.Replaces txn s₁)
    (hremoves : s.Removes s₁ {txn.pointer}) (hinserts : s₁.Inserts txn status s')
    (hready : txn.isReady = false)
    (hbelow : txn.accountSequenceNumberType.minSeq ≤ txn.sequenceNumber)
    (hnumber : ∀ number, s.HasTransactions txn.getSender →
      s.sequenceNumbers txn.getSender = some number →
      number ≤ txn.accountSequenceNumberType.minSeq) (hroom : s.CanReplace txn) : s'.Placed := by
  have hparked : s₁.parked ⊆ s.parked := by
    rw [hremoves.parked]
    exact Set.sdiff_subset
  cases hinserts with
  | full out hout hcode hfull hevicts =>
    cases hreplaces with
    | fresh => exact h.removes_parked hevicts hout
    | older current hget hupdates =>
      exact absurd hfull (hroom.not_isFull hbefore hbounded hget hupdates)
  | tooMany out hout hcode hcleans hmany =>
    -- the account has lost nothing, neither an older version nor committed transactions
    have hall := hremoves.trans hcleans
    have hkept : ∀ p ∈ s.stored, p.1 = txn.getSender → p ∉ ({txn.pointer} ∪
        (out ∪ below txn.getSender txn.accountSequenceNumberType.minSeq) : Set TxnPointer) := by
      intro p hp haddress
      rw [← haddress] at hmany
      exact hbounded.not_mem_of_length_le hall hafter hmany hp
    refine h.removes_parked (hall.congr hbefore.parked_subset_stored fun p hp => ?_)
      (hout.trans hparked)
    refine ⟨?_, fun hin => Or.inr (Or.inl hin)⟩
    rintro (rfl | hin | hin)
    · exact absurd (Or.inl rfl) (hkept _ hp rfl)
    · exact hin
    · exact absurd (Or.inr (Or.inr hin)) (hkept p hp hin.1)
  | accepted out last hout hcode hcleans hlength hcapacity hstores hprocesses =>
    exact h.stores (hremoves.trans hcleans) (hout.trans hparked) hstores hprocesses hready hbelow
      hnumber

/-- A transaction comes in with a number of its account that is not behind the recorded one, it is
not below that number and not ready, and if it replaces another one, then there is room for it. A
transaction of the queue is rejected only if the next one is not stored. -/
def KeepsRuns (s : TransactionStore P) : StoreCall P → Prop
  | .insert txn _ => txn.isReady = false ∧
    txn.accountSequenceNumberType.minSeq ≤ txn.sequenceNumber ∧
    (∀ number, s.HasTransactions txn.getSender →
      s.sequenceNumbers txn.getSender = some number →
      number ≤ txn.accountSequenceNumberType.minSeq) ∧ s.CanReplace txn
  | .rejectTransaction account sequenceNumber hash =>
    s.hashIndex hash = some (account, sequenceNumber) →
      (account, sequenceNumber) ∈ s.queued → (account, sequenceNumber + 1) ∉ s.stored
  | .commitTransaction _ _ | .readTimeline _ _ | .gc _ _ => True

theorem Placed.performs {call : StoreCall P} (h : s.Placed) (hbounded : s.Bounded)
    (hbefore : s.Consistent world) (hafter : s'.Consistent world) (hkeeps : s.KeepsRuns call)
    (hperforms : s.Performs call s') : s'.Placed := by
  cases hperforms with
  | same => exact h
  | insert hreplaces hremoves hinserts =>
    obtain ⟨hready, hbelow, hnumber, hroom⟩ := hkeeps
    exact h.inserts hbounded hbefore hafter hreplaces hremoves hinserts hready hbelow hnumber hroom
  | commit hcommits => exact h.commits hcommits
  | reject hstored hhash hremoves => exact h.removes_last hremoves (hkeeps hhash)
  | gc hcollects =>
    refine h.collects hcollects ?_
    rintro p ⟨t, ht, hpointer, -⟩
    exact ⟨t, ht, hpointer⟩

theorem Placed.new {config : MempoolConfig} {overheadBytes : ℕ}
    (h : TransactionStore.new config overheadBytes = some s) : s.Placed := by
  obtain ⟨timelineIndex, -, heq⟩ := Option.bind_eq_some_iff.mp h
  cases heq
  constructor
  · rintro p ⟨t, ht, -⟩
    cases ht
  · rintro p ⟨t, ht, -⟩
    cases ht

theorem Reaches.placed [DecidableEq P] (h : Reaches KeepsRuns s) : s.Placed := by
  induction h with
  | new config overheadBytes h => exact .new h
  | perform h call hkeeps hs ih =>
    obtain ⟨hbefore, hbounded⟩ := h.consistent fun _ call _ => call.inserts_any
    obtain ⟨hafter, hperforms⟩ := hbefore.performs call.inserts_any hs
    exact ih.performs hbounded hbefore hafter hkeeps hperforms

/-- Every stored transaction is in one of the queue and the parking lot, and the queue has those of
an account from its number up to the first gap. -/
structure Partitioned (s : TransactionStore P) : Prop where
  either : ∀ p ∈ s.stored, p ∈ s.queued ∧ p ∉ s.parked ∨ p ∉ s.queued ∧ p ∈ s.parked
  run : ∀ p, p ∈ s.queued ↔
    ∃ first, s.sequenceNumbers p.1 = some first ∧ first ≤ p.2 ∧ s.InRun p.1 first p.2

theorem Placed.toPartitioned (h : s.Placed) : s.Partitioned := by
  constructor
  · intro p hp
    obtain ⟨first, hplaced⟩ := h.placed p hp
    rw [hplaced.queued, hplaced.parked]
    tauto
  · intro p
    constructor
    · intro hp
      obtain ⟨first, hplaced⟩ := h.placed p (queued_subset_stored hp)
      exact ⟨first, hplaced.number, hplaced.first_le, hplaced.queued.mp hp⟩
    · rintro ⟨first, hnumber, hle, hrun⟩
      obtain ⟨first', hplaced⟩ := h.placed p (hrun p.2 hle le_rfl)
      obtain rfl := Option.some.inj (hplaced.number.symm.trans hnumber)
      exact hplaced.queued.mpr hrun

theorem Reaches.partitioned [DecidableEq P] (h : Reaches KeepsRuns s) : s.Partitioned :=
  h.placed.toPartitioned

open SmallPool

/-- The second transaction of the account comes in first, and then the first one. -/
theorem SmallPool.reaches_two : ∃ s : TransactionStore Unit, Reaches KeepsRuns s ∧
    s.transactions.length = 2 ∧
    (s.rejectTransaction 1 0 (Nat.pair 0 3)).transactions =
      [(transfer 1 3 .notReady 0).withState (.ready 2)] ∧
    (s.rejectTransaction 1 0 (Nat.pair 0 3)).priorityIndex =
      [(transfer 1 3 .notReady 0).queueKey] ∧
    (s.rejectTransaction 1 0 (Nat.pair 0 3)).sequenceNumbers 1 = some 0 := by
  have hfirst : Reaches KeepsRuns _ := (Reaches.new config 1 rfl).perform
    (.insert (transfer 1 3 .notReady 0) 0)
    ⟨rfl, Nat.zero_le _, fun _ _ hnumber => Option.noConfusion rfl (heq_of_eq hnumber),
      fun _ hget => Option.noConfusion rfl (heq_of_eq hget)⟩ rfl
  have hsecond : Reaches KeepsRuns _ := hfirst.perform (.insert (transfer 0 3 .notReady 0) 0)
    ⟨rfl, Nat.zero_le _, fun _ _ hnumber => (Option.some.inj hnumber).ge,
      fun _ hget => Option.noConfusion rfl (heq_of_eq hget)⟩ rfl
  exact ⟨_, hsecond, rfl, rfl, rfl, rfl⟩

theorem Reaches.partitioned_two : ∃ s : TransactionStore Unit, s.transactions.length = 2 ∧
    s.Partitioned := by
  obtain ⟨s, hreaches, hlength, -⟩ := reaches_two
  exact ⟨s, hlength, hreaches.partitioned⟩

/-- The first transaction of the account is rejected, and the second one stays in the queue. -/
theorem Reaches.partitioned_fails : ∃ s s' : TransactionStore Unit, Reaches KeepsRuns s ∧
    s.perform (.rejectTransaction 1 0 (Nat.pair 0 3)) = some s' ∧ ¬ s'.Partitioned := by
  obtain ⟨s, hreaches, -, htransactions, hpriority, hnumber⟩ := reaches_two
  refine ⟨s, _, hreaches, rfl, fun hpartitioned => ?_⟩
  have hqueued : (1, 1) ∈ (s.rejectTransaction 1 0 (Nat.pair 0 3)).queued := by
    refine ⟨(transfer 1 3 .notReady 0).withState (.ready 2), ?_, rfl, ?_⟩
    · rw [htransactions]
      exact List.mem_cons_self
    · rw [hpriority]
      exact List.mem_cons_self
  obtain ⟨first, hfirst, -, hrun⟩ := (hpartitioned.run (1, 1)).mp hqueued
  obtain rfl := Option.some.inj (hfirst.symm.trans hnumber)
  obtain ⟨t, ht, hpointer⟩ := hrun 0 le_rfl (Nat.zero_le _)
  rw [htransactions, List.mem_singleton] at ht
  subst ht
  cases hpointer

end TransactionStore

end Anthemius.Mempool

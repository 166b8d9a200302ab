import Anthemius.MempoolRuns
import Mathlib.Logic.Relation

/-!
# Sequence numbers of the accounts in the mempool

An account has a number while it has stored transactions, and meanwhile the number does not go
back.
-/
namespace Anthemius.Mempool

namespace TransactionStore
variable {P : Type} {s s' : TransactionStore P} {world : MempoolTransaction P → Prop}
  {address : AccountAddress}

/-- The accounts with a number are those with a stored transaction. -/
def Recorded (s : TransactionStore P) : Prop :=
  ∀ address, (∃ number, s.sequenceNumbers address = some number) ↔ s.HasTransactions address

/-- The number of an account that has transactions before and after does not go back. -/
def NotBack (s s' : TransactionStore P) : Prop :=
  ∀ address number number', s.HasTransactions address → s'.HasTransactions address →
    s.sequenceNumbers address = some number → s'.sequenceNumbers address = some number' →
    number ≤ number'

theorem Recorded.shrinks (h : s.Recorded) (hshrinks : s.Shrinks s') : s'.Recorded := by
  intro address
  by_cases hafter : s'.HasTransactions address
  · rw [hshrinks.kept address hafter, h address]
    exact iff_of_true (hshrinks.hasTransactions hafter) hafter
  · refine iff_of_false ?_ hafter
    rintro ⟨number, hnumber⟩
    by_cases hbefore : s.HasTransactions address
    · rw [hshrinks.gone address hbefore hafter] at hnumber
      cases hnumber
    · rw [hshrinks.same address hbefore] at hnumber
      exact hbefore ((h address).mp ⟨number, hnumber⟩)

theorem Shrinks.notBack (h : s.Shrinks s') : s.NotBack s' := by
  intro address number number' _ hafter hnumber hnumber'
  rw [h.kept address hafter, hnumber] at hnumber'
  exact (Option.some.inj hnumber').le

theorem Stores.hasTransactions_of_ne {txn : MempoolTransaction P} (h : s.Stores s' txn)
    (haddress : address ≠ txn.getSender) :
    s'.HasTransactions address ↔ s.HasTransactions address := by
  rw [HasTransactions, HasTransactions, h.stored]
  constructor
  · rintro ⟨p, hp, hsender⟩
    refine ⟨p, hp.resolve_left ?_, hsender⟩
    rintro rfl
    exact haddress hsender.symm
  · rintro ⟨p, hp, hsender⟩
    exact ⟨p, Or.inr hp, hsender⟩

/-- Storing a transaction sets the number of its account. -/
theorem Recorded.stores {txn : MempoolTransaction P} (h : s.Recorded) (hstores : s.Stores s' txn) :
    s'.Recorded := by
  intro address
  rw [hstores.numbers]
  by_cases haddress : address = txn.getSender
  · subst haddress
    refine iff_of_true ⟨_, Function.update_self ..⟩ ⟨txn.pointer, ?_, rfl⟩
    rw [hstores.stored]
    exact Or.inl rfl
  · rw [Function.update_of_ne haddress, h address, hstores.hasTransactions_of_ne haddress]

theorem Recorded.inserts {txn : MempoolTransaction P} {status : MempoolStatus} (h : s.Recorded)
    (hinserts : s.Inserts txn status s') : s'.Recorded := by
  cases hinserts with
  | full out hout hcode hfull hremoves => exact h.shrinks hremoves.shrinks
  | tooMany out hout hcode hremoves => exact h.shrinks hremoves.shrinks
  | accepted out last hout hcode hremoves hroom hcapacity hstores hprocesses =>
    exact ((h.shrinks hremoves.shrinks).stores hstores).shrinks hprocesses.reorders.shrinks

theorem Inserts.notBack {txn : MempoolTransaction P} {status : MempoolStatus}
    {s₁ : TransactionStore P} (hinserts : s₁.Inserts txn status s') (hshrinks : s.Shrinks s₁)
    (hnumber : ∀ number, s.HasTransactions txn.getSender →
      s.sequenceNumbers txn.getSender = some number →
      number ≤ txn.accountSequenceNumberType.minSeq) : s.NotBack s' := by
  cases hinserts with
  | full out hout hcode hfull hremoves => exact (hshrinks.trans hremoves.shrinks).notBack
  | tooMany out hout hcode hremoves => exact (hshrinks.trans hremoves.shrinks).notBack
  | accepted out last hout hcode hremoves hroom hcapacity hstores hprocesses =>
    intro address number number' hbefore hafter hfirst hlast
    rw [hprocesses.reorders.numbers, hstores.numbers] at hlast
    rw [Function.update_apply] at hlast
    split_ifs at hlast with haddress
    · subst haddress
      rw [← Option.some.inj hlast]
      exact hnumber number hbefore hfirst
    · have hcleaned := (hstores.hasTransactions_of_ne haddress).mp
        (hprocesses.reorders.hasTransactions.mp hafter)
      exact (hshrinks.trans hremoves.shrinks).notBack address number number' hbefore hcleaned hfirst
        hlast

/-- A transaction comes in with a number of its account that is not behind the recorded one, and
commits are of accounts with stored transactions. -/
def KeepsNumbers (s : TransactionStore P) : StoreCall P → Prop
  | .insert txn _ => ∀ number, s.HasTransactions txn.getSender →
    s.sequenceNumbers txn.getSender = some number →
    number ≤ txn.accountSequenceNumberType.minSeq
  | .commitTransaction account _ => s.HasTransactions account
  | .rejectTransaction _ _ _ | .readTimeline _ _ | .gc _ _ => True

theorem Recorded.withNumber (h : s.Recorded) (haddress : s.HasTransactions address) (number : ℕ) :
    (s.withNumber address number).Recorded := by
  intro address'
  by_cases heq : address' = address
  · subst heq
    exact iff_of_true ⟨number, withNumber_self⟩ haddress
  · rw [withNumber_of_ne heq]
    exact h address'

theorem Commits.notBack {sequenceNumber : ℕ}
    (h : s.Commits s' address (s.committedNumber address sequenceNumber)) : s.NotBack s' := by
  intro address' number number' hbefore hafter hfirst hlast
  rw [h.shrinks.kept address' hafter] at hlast
  by_cases heq : address' = address
  · subst heq
    rw [withNumber_self] at hlast
    rw [← Option.some.inj hlast, committedNumber, hfirst]
    exact le_max_left ..
  · rw [withNumber_of_ne heq, hfirst] at hlast
    exact (Option.some.inj hlast).le

theorem Recorded.performs {call : StoreCall P} (h : s.Recorded) (hkeeps : s.KeepsNumbers call)
    (hperforms : s.Performs call s') : s'.Recorded ∧ s.NotBack s' := by
  cases hperforms with
  | same => exact ⟨h, (Shrinks.refl s).notBack⟩
  | insert hreplaces hremoves hinserts =>
    exact ⟨(h.shrinks hremoves.shrinks).inserts hinserts,
      hinserts.notBack hremoves.shrinks hkeeps⟩
  | commit hcommits =>
    exact ⟨(h.withNumber hkeeps _).shrinks hcommits.shrinks, hcommits.notBack⟩
  | reject hstored hhash hremoves =>
    exact ⟨h.shrinks hremoves.shrinks, hremoves.shrinks.notBack⟩
  | gc hcollects => exact ⟨h.shrinks hcollects.shrinks, hcollects.shrinks.notBack⟩

theorem Recorded.new {config : MempoolConfig} {overheadBytes : ℕ}
    (h : TransactionStore.new config overheadBytes = some s) : s.Recorded := by
  obtain ⟨timelineIndex, -, heq⟩ := Option.bind_eq_some_iff.mp h
  cases heq
  intro address
  refine iff_of_false ?_ ?_
  · rintro ⟨number, hnumber⟩
    cases hnumber
  · rintro ⟨p, ⟨t, ht, -⟩, -⟩
    cases ht

theorem Reaches.recorded [DecidableEq P] (h : Reaches KeepsNumbers s) : s.Recorded := by
  induction h with
  | new config overheadBytes h => exact .new h
  | perform h call hkeeps hs ih =>
    obtain ⟨hindexed, -⟩ := h.consistent fun _ call _ => call.inserts_any
    exact (ih.performs hkeeps (hindexed.performs call.inserts_any hs).2).1

/-- A call after which the account still has transactions. -/
def StaysWith [DecidableEq P] (address : AccountAddress) (s s' : TransactionStore P) : Prop :=
  s.HasTransactions address ∧ s'.HasTransactions address ∧
    ∃ call, s.KeepsNumbers call ∧ s.perform call = some s'

theorem Reaches.stays [DecidableEq P] (h : Reaches KeepsNumbers s)
    (hstays : Relation.ReflTransGen (StaysWith address) s s') : Reaches KeepsNumbers s' := by
  induction hstays with
  | refl => exact h
  | tail _ hstep ih =>
    obtain ⟨-, -, call, hkeeps, hs⟩ := hstep
    exact ih.perform call hkeeps hs

/-- The accounts with a number are those with stored transactions, and while an account has some
its number does not go back. -/
theorem Reaches.numbers [DecidableEq P] (h : Reaches KeepsNumbers s) :
    s.Recorded ∧ ∀ address s' number number',
      Relation.ReflTransGen (StaysWith address) s s' →
      s.sequenceNumbers address = some number → s'.sequenceNumbers address = some number' →
      number ≤ number' := by
  refine ⟨h.recorded, fun address s' number number' hstays hfirst hlast => ?_⟩
  induction hstays generalizing number' with
  | refl => exact (Option.some.inj (hfirst.symm.trans hlast)).le
  | tail hstays hstep ih =>
    obtain ⟨hbefore, hafter, call, hkeeps, hs⟩ := hstep
    have hreaches := h.stays hstays
    obtain ⟨middle, hmiddle⟩ := (hreaches.recorded address).mpr hbefore
    obtain ⟨hindexed, -⟩ := hreaches.consistent fun _ call _ => call.inserts_any
    have hperforms := (hindexed.performs call.inserts_any hs).2
    exact (ih middle hmiddle).trans
      ((hreaches.recorded.performs hkeeps hperforms).2 address middle number' hbefore hafter hmiddle
        hlast)

open SmallPool

theorem SmallPool.stays_committed : ∃ s s' : TransactionStore Unit, Reaches KeepsNumbers s ∧
    s.StaysWith 1 s' ∧ s.sequenceNumbers 1 = some 0 ∧ s'.sequenceNumbers 1 = some 1 := by
  have hfirst : Reaches KeepsNumbers _ := (Reaches.new config 1 rfl).perform
    (.insert (transfer 1 3 .notReady 0) 0)
    (fun _ _ hnumber => Option.noConfusion rfl (heq_of_eq hnumber)) rfl
  have hsecond : Reaches KeepsNumbers _ := hfirst.perform (.insert (transfer 0 3 .notReady 0) 0)
    (fun _ _ hnumber => (Option.some.inj hnumber).ge) rfl
  refine ⟨_, _, hsecond, ⟨hasTransactions_of_isEmpty rfl, hasTransactions_of_isEmpty rfl,
    .commitTransaction 1 0, hasTransactions_of_isEmpty rfl, rfl⟩, rfl, rfl⟩

theorem Reaches.numbers_committed : ∃ s s' : TransactionStore Unit, s.Recorded ∧
    s.sequenceNumbers 1 = some 0 ∧ s'.sequenceNumbers 1 = some 1 ∧
    ∀ number number', s.sequenceNumbers 1 = some number → s'.sequenceNumbers 1 = some number' →
      number ≤ number' := by
  obtain ⟨s, s', hreaches, hstays, hfirst, hlast⟩ := stays_committed
  obtain ⟨hrecorded, hnumbers⟩ := hreaches.numbers
  exact ⟨s, s', hrecorded, hfirst, hlast, fun number number' =>
    hnumbers 1 s' number number' (.single hstays)⟩

/-- A commit gives an account without transactions a number, and a transaction with an older number
of its account takes the number back. -/
theorem Reaches.numbers_fails :
    (∃ s : TransactionStore Unit, Reaches (fun _ _ => True) s ∧ ¬ s.Recorded) ∧
    ∃ s s' : TransactionStore Unit, Reaches (fun _ _ => True) s ∧ s.HasTransactions 1 ∧
      s.perform (.insert (transfer 6 3 .notReady 3) 0) = some s' ∧ s'.HasTransactions 1 ∧
      s.sequenceNumbers 1 = some 5 ∧ s'.sequenceNumbers 1 = some 3 := by
  constructor
  · refine ⟨_, (Reaches.new config 1 rfl).perform (.commitTransaction 1 0) trivial rfl,
      fun hrecorded => ?_⟩
    obtain ⟨p, ⟨t, ht, -⟩, -⟩ := (hrecorded 1).mp ⟨1, rfl⟩
    cases ht
  · exact ⟨_, _, (Reaches.new config 1 rfl).perform (.insert (transfer 5 3 .notReady 5) 0) trivial
      rfl, hasTransactions_of_isEmpty rfl, rfl, hasTransactions_of_isEmpty rfl, rfl, rfl⟩

end TransactionStore

end Anthemius.Mempool

import Anthemius.ClaimInvariants
import Anthemius.StatusMachine

/-! When a committed version was validated. The validation index is looked up, the status of
the transaction at that index is looked up, and only then is the index taken and increased;
an abort in between changes which transaction the claim is for. The soundness of commits
holds in the runs in which nothing happens in between. -/
namespace Anthemius.CommitSoundness
open Speculation StatusMachine

variable {K P E : Type} {m : ℕ}

/-- Every committed version was found valid by a validation claimed after all earlier
transactions had reached the incarnation they are committed with, and every claim is for a
version that was executed. -/
structure CommitSound (s : State K P E m) : Prop where
  justified : ∀ v, .committed v ∈ s.history → ∃ earlier wave past,
    (.committed v :: earlier) <:+ s.history ∧ Accepted earlier v wave past ∧
      ∀ j < v.1, ∃ inc, s.sched.txnStatus j = .committed inc ∧ .executed (j, inc) ∈ past
  claimed : ∀ v wave past, (.claimed v wave :: past) <:+ s.history → .executed v ∈ past

/-- In a run whose claims are all atomic, every state is sound. -/
theorem commitSound_of_atomicClaims [DecidableEq K] {job : Job K P E} {s : State K P E m}
    (hs : State.Reached job AtomicClaims s) : CommitSound s := by
  have hr : Speculation.Reachable job ⟨True, False, True⟩ (s.speculation job) :=
    State.Reached.speculation (fun _ _ _ h => h) (fun h => h.elim)
      (fun _ _ _ h => h.boundedWaves) hs
  have h := hr.claimInvariant trivial trivial
  exact ⟨h.justified, fun _ _ _ hc => h.claimed_executed hc⟩

/-- Transaction 1 is executed too early, aborted and executed again, while the other worker
waits with an empty hand until all is done. -/
def carefulSchedule : List (Fin 2 × ℕ) := alternate [8, 31, 126, 7]

theorem commitSound_carefulSchedule :
    ∃ s : State ℕ Unit Unit 2, State.Reached chainBlock AtomicClaims s ∧
      .committed (2, 1) ∈ s.history ∧ CommitSound s := by
  obtain ⟨s, hr, h⟩ : ∃ s : State ℕ Unit Unit 2, State.Reached chainBlock AtomicClaims s ∧
      .committed (2, 1) ∈ s.history :=
    State.Reached.of_schedule carefulSchedule (by decide +kernel) (by decide +kernel)
  exact ⟨s, hr, h, commitSound_of_atomicClaims hr⟩

/-- Between the look-ups and the claim of worker 1, which saw transaction 2 executed, worker 0
aborts transaction 1. The claim is then for transaction 1; its validation fails, the abort
fails since the version is gone, and the wave counts as validated. The second incarnation of
transaction 1 is committed and was never validated. -/
theorem not_commitSound_staleSchedule :
    ∃ s : State ℕ Unit Unit 2, State.Reachable chainBlock s ∧ ¬ CommitSound s := by
  obtain ⟨s, hr, hcommitted, hnone⟩ : ∃ s : State ℕ Unit Unit 2, State.Reachable chainBlock s ∧
      .committed (1, 1) ∈ s.history ∧ (s.history.all fun
        | .validated v _ => v ≠ (1, 1)
        | _ => true) = true :=
    State.Reachable.of_schedule staleSchedule (by decide +kernel)
  refine ⟨s, hr, fun hsound => ?_⟩
  obtain ⟨earlier, wave, past, hsuf, ⟨later, hval, -⟩, -⟩ := hsound.justified _ hcommitted
  have hmem : Event.validated (1, 1) wave ∈ s.history :=
    hsuf.subset (List.mem_cons_of_mem _ (hval.subset List.mem_cons_self))
  simpa using List.all_eq_true.mp hnone _ hmem

end Anthemius.CommitSoundness

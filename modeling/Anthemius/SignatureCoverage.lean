import Anthemius.WorkerDuties
import Anthemius.BlockCompletion

/-! Which signatures are looked at in `Pythia_Sig` mode: the workers claim the block in strides
of 25 indices, but a claim checks 24 of them. -/
namespace Anthemius

namespace Crew
variable {m n : ℕ} {mode : ExecutionMode} {w : Fin m} {c c' : Crew m}

theorem mem_sigTask {k i : ℕ} : i ∈ sigTask n k ↔ k ≤ i ∧ i < k + 24 ∧ i < n := by
  simp only [sigTask, List.mem_filter, List.mem_map, List.mem_range, decide_eq_true_eq]
  constructor
  · rintro ⟨⟨j, hj, rfl⟩, hi⟩
    exact ⟨Nat.le_add_right k j, Nat.add_lt_add_left hj k, hi⟩
  · rintro ⟨hk, hi, hn⟩
    exact ⟨⟨i - k, by omega, by omega⟩, hn⟩

/-- The claims are the multiples of the stride, and each is being worked on or done. -/
structure SigInvariant (n : ℕ) (mode : ExecutionMode) (c : Crew m) : Prop where
  stride : c.sigValIdx % 25 = 0
  verifying : ∀ u k, c.duty u = .verifying k → k % 25 = 0
  verified : ∀ i : ℕ, i ∈ c.verified → i % 25 ≠ 24
  claimed : ∀ k, k % 25 = 0 → k < c.sigValIdx → k ≤ n →
    (∃ u, c.duty u = .verifying k) ∨ ∀ i ∈ sigTask n k, i ∈ c.verified
  marked : c.doneMarker = true → mode = .pythiaSig → n ≤ c.sigValIdx

theorem sigInvariant_new : SigInvariant n mode (new : Crew m) where
  stride := rfl
  verifying _ _ h := by cases h
  verified _ h := by cases h
  claimed _ _ h := absurd h (Nat.not_lt_zero _)
  marked h := by cases h

/-- A worker that is not verifying may take up any duty but another claim. -/
theorem SigInvariant.turn (h : SigInvariant n mode c) {d : Duty} {t : Crew m}
    (hold : ∀ k, c.duty w ≠ .verifying k) (hnew : ∀ k, d ≠ .verifying k)
    (hduty : t.duty = c.duty) (hsig : t.sigValIdx = c.sigValIdx) (hver : t.verified = c.verified)
    (hmark : t.doneMarker = c.doneMarker) : SigInvariant n mode (t.turn w d) where
  stride := by simpa only [Crew.turn, hsig] using h.stride
  verifying u k hu := by
    simp only [Crew.turn, hduty] at hu
    rw [Function.update_apply] at hu
    split at hu
    · exact absurd hu (hnew k)
    · exact h.verifying u k hu
  verified := by simpa only [Crew.turn, hver] using h.verified
  claimed k hk hlt hn := by
    simp only [Crew.turn, hsig, hver, hduty] at hlt ⊢
    rcases h.claimed k hk hlt hn with ⟨u, hu⟩ | hdone
    · refine .inl ⟨u, ?_⟩
      have huw : u ≠ w := fun huw => hold k (huw ▸ hu)
      rwa [Function.update_of_ne huw]
    · exact .inr hdone
  marked := by simpa only [Crew.turn, hsig, hmark] using h.marked

theorem sigInvariant_claim (h : SigInvariant n mode c) (hd : c.duty w = .idle) :
    SigInvariant n mode ({ c with sigValIdx := c.sigValIdx + 25 }.turn w
      (if c.sigValIdx ≤ n then .verifying c.sigValIdx else .idle)) where
  stride := by
    have := h.stride
    simp only [Crew.turn]
    omega
  verifying u k hu := by
    simp only [Crew.turn] at hu
    rw [Function.update_apply] at hu
    split at hu
    · split at hu <;> cases hu
      exact h.stride
    · exact h.verifying u k hu
  verified := h.verified
  claimed k hk hlt hn := by
    have hstride := h.stride
    simp only [Crew.turn] at hlt ⊢
    by_cases hnew : k = c.sigValIdx
    · refine .inl ⟨w, ?_⟩
      rw [Function.update_self, if_pos (hnew ▸ hn), hnew]
    · rcases h.claimed k hk (by omega) hn with ⟨u, hu⟩ | hdone
      · refine .inl ⟨u, ?_⟩
        have huw : u ≠ w := by
          rintro rfl
          rw [hd] at hu
          cases hu
        rwa [Function.update_of_ne huw]
      · exact .inr hdone
  marked hm hp := (h.marked hm hp).trans (Nat.le_add_right _ _)

theorem sigInvariant_verify (h : SigInvariant n mode c) {k : ℕ} (hd : c.duty w = .verifying k) :
    SigInvariant n mode ({ c with verified := c.verified ++ sigTask n k }.turn w .idle) where
  stride := h.stride
  verifying u k' hu := by
    simp only [Crew.turn] at hu
    rw [Function.update_apply] at hu
    split at hu
    · cases hu
    · exact h.verifying u k' hu
  verified i hi := by
    rcases List.mem_append.mp hi with hi | hi
    · exact h.verified i hi
    · -- a task starts at a multiple of 25 and stops one index short of the next one
      have hk := h.verifying w k hd
      have := mem_sigTask.mp hi
      omega
  claimed k' hk hlt hn := by
    simp only [Crew.turn]
    rcases h.claimed k' hk hlt hn with ⟨u, hu⟩ | hdone
    · by_cases huw : u = w
      · subst huw
        cases hd.symm.trans hu
        exact .inr fun i hi => List.mem_append_right _ hi
      · refine .inl ⟨u, ?_⟩
        rwa [Function.update_of_ne huw]
    · exact .inr fun i hi => List.mem_append_left _ (hdone i hi)
  marked := h.marked

theorem sigInvariant_step (h : SigInvariant n mode c) (hs : Step n mode w c c') :
    SigInvariant n mode c' := by
  cases hs with
  | lock hd | leave hd =>
    refine h.turn (fun k hk => ?_) (fun k hk => by cases hk) rfl rfl rfl rfl
    rw [hd] at hk
    cases hk
  | release hd | observe hd | claim hd | lower hd =>
    refine h.turn (fun k hk => ?_) (fun k hk => by cases hk) ?_ ?_ ?_ ?_
    · rw [hd] at hk
      cases hk
    all_goals rfl
  | sigClaim hd => exact sigInvariant_claim h hd
  | verify hd => exact sigInvariant_verify h hd
  | mark hm =>
    refine ⟨h.stride, h.verifying, h.verified, h.claimed, fun _ hp => ?_⟩
    rcases hm with hm | hm
    · exact absurd hp hm
    · exact hm

theorem Reachable.sigInvariant (hc : Reachable n mode c) : SigInvariant n mode c := by
  refine InterleavedRuns.invariant_of_step sigInvariant_new ?_ hc
  rintro t t' - ht ⟨w, hs⟩
  exact sigInvariant_step ht hs

end Crew

namespace State
variable {K P E : Type} {m : ℕ} [DecidableEq K] {job : Job K P E} {s : State K P E m}

/-- When everybody has left, every 25th signature has not been looked at. -/
theorem verified_iff (hmode : job.mode = .pythiaSig) (hs : State.Reachable job s)
    (hdone : s.sched.doneMarker = true) (hleft : ∀ w, ∃ done, (s.workers w).pc = .exited done)
    {i : ℕ} (hi : i < job.numTxns) : i ∈ s.verified ↔ i % 25 ≠ 24 := by
  have hinv := (State.Reachable.crew hs).sigInvariant
  refine ⟨hinv.verified i, fun hmod => ?_⟩
  have hall : job.numTxns ≤ s.sched.sigValIdx := hinv.marked hdone hmode
  have hk : i / 25 * 25 ≤ i := Nat.div_mul_le_self i 25
  rcases hinv.claimed (i / 25 * 25) (Nat.mul_mod_left _ _) (show _ < s.sched.sigValIdx by omega)
    (by omega) with ⟨u, hu⟩ | hverified
  · obtain ⟨done, hpc⟩ := hleft u
    simp only [State.crew, hpc] at hu
    cases done <;> cases hu
  · exact hverified i (Crew.mem_sigTask.mpr ⟨hk, by omega, hi⟩)

/-- The signature tasks cover exactly the blocks that are shorter than a stride. -/
theorem verified_all_iff (hmode : job.mode = .pythiaSig) (hs : State.Reachable job s)
    (hdone : s.sched.doneMarker = true) (hleft : ∀ w, ∃ done, (s.workers w).pc = .exited done) :
    (∀ i < job.numTxns, i ∈ s.verified) ↔ job.numTxns ≤ 24 := by
  constructor
  · intro hall
    by_contra hn
    have h24 : 24 < job.numTxns := by omega
    exact (verified_iff hmode hs hdone hleft h24).mp (hall 24 h24) rfl
  · intro hn i hi
    exact (verified_iff hmode hs hdone hleft hi).mpr (by omega)

end State

/-- A block of transactions that do nothing, each with its signature to check. -/
def signedBlock (n : ℕ) (hn : n < 2 ^ 32)
    (hplan : (Plan.new n (List.replicate n []) (List.replicate n 1)).isSome) :
    Job Unit Unit Unit where
  numTxns := n
  numTxns_lt := hn
  program := fun _ => .finished (.success (.ofWrite none ()))
  prologue := fun _ => .finished true
  prologueMap := fun _ => false
  base := fun _ => none
  mode := .pythiaSig
  dependencies := List.replicate n []
  gasEstimates := List.replicate n 1
  plan := (Plan.new n (List.replicate n []) (List.replicate n 1)).get hplan
  plan_new := (Option.some_get hplan).symm

/-- One worker runs a block of two transactions to its end; both signatures are looked at. -/
theorem verified_all_signedBlock : ∃ s : State Unit Unit Unit 1,
    State.Reachable (signedBlock 2 (by decide) rfl) s ∧ (s.workers 0).pc = .exited true ∧
      ∀ i < 2, i ∈ s.verified := by
  obtain ⟨s, hreach, hdone, hexit⟩ : ∃ s : State Unit Unit Unit 1,
      State.Reachable (signedBlock 2 (by decide) rfl) s ∧ s.sched.doneMarker = true ∧
        (s.workers 0).pc.isDone = true :=
    by exact State.Reachable.of_schedule (List.replicate 89 (0, 0)) (by decide +kernel)
  have hexit := Pc.isDone_iff.mp hexit
  have hleft : ∀ w, ∃ done, (s.workers w).pc = .exited done := fun w =>
    ⟨true, by rwa [Fin.eq_zero w]⟩
  exact ⟨s, hreach, hexit, (State.verified_all_iff rfl hreach hdone hleft).mpr (by decide)⟩

/-- With 25 transactions the last one is never looked at. -/
theorem unverified_signedBlock : ∃ s : State Unit Unit Unit 1,
    State.Reachable (signedBlock 25 (by decide) rfl) s ∧ s.sched.doneMarker = true ∧
      (∀ w, ∃ done, (s.workers w).pc = .exited done) ∧ 24 ∉ s.verified := by
  obtain ⟨s, hreach, hdone, hexit, hver⟩ : ∃ s : State Unit Unit Unit 1,
      State.Reachable (signedBlock 25 (by decide) rfl) s ∧ s.sched.doneMarker = true ∧
        (s.workers 0).pc.isDone = true ∧ 24 ∉ s.verified :=
    by exact State.Reachable.of_schedule (List.replicate 894 (0, 0)) (by decide +kernel)
  refine ⟨s, hreach, hdone, fun w => ⟨true, ?_⟩, hver⟩
  rw [Fin.eq_zero w]
  exact Pc.isDone_iff.mp hexit

end Anthemius

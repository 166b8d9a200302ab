import Anthemius.ValidatorVerifiers
import Mathlib.Algebra.BigOperators.Fin
import Mathlib.Algebra.Order.BigOperators.Group.Finset

/-!
# Intersections of quorums

Two signatures that a validator set accepts have a common signer that is not faulty, as long as
the faulty validators have no more than a third of the voting power.
-/
namespace Anthemius.Consensus
namespace ValidatorVerifier

variable {v : ValidatorVerifier} {M : Type} {bls : Bls M}

/-- The power of the validator of a position, none beyond the last one. -/
def powerAt (v : ValidatorVerifier) (index : ℕ) : ℕ :=
  (v.validatorInfos[index]?.map fun info => info.votingPower.toNat).getD 0

theorem sum_powerAt : ∑ index ∈ Finset.range v.len, v.powerAt index = v.totalVotingPower := by
  rw [Finset.sum_range, totalVotingPower, ← Fin.sum_univ_fun_getElem]
  refine Finset.sum_congr rfl fun index _ => ?_
  rw [powerAt, List.getElem?_eq_getElem index.2]
  rfl

/-- The positions that are set in the mask. -/
def signers (signature : AggregateSignature) : Finset ℕ :=
  signature.validatorBitmask.iterOnes.toFinset

section Distinct
variable (haddresses : (v.validatorInfos.map ValidatorConsensusInfo.address).Nodup)
include haddresses

theorem addVotingPower_address {info : ValidatorConsensusInfo} (hinfo : info ∈ v.validatorInfos)
    {sum total : ℕ} (h : v.addVotingPower sum info.address = .ok total) :
    total = sum + info.votingPower.toNat := by
  rw [addVotingPower] at h
  cases hpower : v.getVotingPower info.address with
  | none =>
    rw [hpower] at h
    cases h
  | some power =>
    rw [hpower] at h
    cases h
    obtain ⟨found, hfound, rfl⟩ := Option.map_eq_some_iff.mp hpower
    obtain ⟨index, hindex, hat⟩ := Option.bind_eq_some_iff.mp hfound
    obtain ⟨⟨other, _⟩, hfind, rfl⟩ := Option.map_eq_some_iff.mp hindex
    have hmem := List.mem_reverse.mp (List.mem_of_find?_eq_some hfind)
    cases (List.mem_zipIdx_iff_getElem?.mp hmem).symm.trans hat
    have hsame : other.address = info.address := by simpa using List.find?_some hfind
    rw [List.inj_on_of_nodup_map haddresses (List.mem_of_getElem? hat) hinfo hsame]

theorem sum_voters {positions : List ℕ} {voters : List ValidatorConsensusInfo} {sum total : ℕ}
    (hvoters : (positions.mapM fun index =>
      okOr v.validatorInfos[index]? VerifyError.unknownAuthor) = .ok voters)
    (h : (voters.map ValidatorConsensusInfo.address).foldlM v.addVotingPower sum = .ok total) :
    total = sum + (positions.map v.powerAt).sum ∧ ∀ index ∈ positions, index < v.len := by
  induction positions generalizing voters sum with
  | nil =>
    cases hvoters
    cases h
    exact ⟨rfl, fun _ hin => absurd hin List.not_mem_nil⟩
  | cons index positions ih =>
    simp only [List.mapM_cons, bind_eq_ok, okOr_eq_ok] at hvoters
    obtain ⟨info, hinfo, rest, hrest, heq⟩ := hvoters
    cases heq
    simp only [List.map_cons, List.foldlM_cons, bind_eq_ok] at h
    obtain ⟨next, hnext, h⟩ := h
    obtain ⟨rfl, hbound⟩ := ih hrest h
    rw [addVotingPower_address haddresses (List.mem_of_getElem? hinfo) hnext]
    refine ⟨?_, List.forall_mem_cons.mpr ⟨(List.getElem?_eq_some_iff.mp hinfo).1, hbound⟩⟩
    rw [List.map_cons, List.sum_cons, powerAt, hinfo, Nat.add_assoc]
    rfl

theorem quorum_of_verify {message : M} {signature : AggregateSignature}
    (h : v.verifyMultiSignatures bls message signature = .ok ()) :
    v.quorumVotingPower ≤ ∑ index ∈ signers signature, v.powerAt index ∧
      signers signature ⊆ Finset.range v.len := by
  simp only [verifyMultiSignatures, checkVoters, checkVotingPower, bind_eq_ok, exists_unit,
    okIf_eq_ok, decide_eq_true_eq] at h
  obtain ⟨voters, ⟨-, _, hvoters, ⟨total, htotal, hquorum⟩, -⟩, -⟩ := h
  obtain ⟨rfl, hbound⟩ := sum_voters haddresses hvoters htotal
  have hnodup : signature.validatorBitmask.iterOnes.Nodup := List.nodup_range.filter _
  rw [signers, List.sum_toFinset v.powerAt hnodup, ← Nat.zero_add (List.sum _)]
  refine ⟨hquorum, fun index hindex => Finset.mem_range.mpr (hbound index ?_)⟩
  exact List.mem_toFinset.mp hindex

/-- Two signatures that verify have a common signer that is not faulty. -/
theorem quorums_intersect (hne : v.validatorInfos ≠ []) {message message' : M}
    {signature signature' : AggregateSignature}
    (h : v.verifyMultiSignatures bls message signature = .ok ())
    (h' : v.verifyMultiSignatures bls message' signature' = .ok ()) (faulty : Finset ℕ)
    (hfaulty : 3 * ∑ index ∈ faulty, v.powerAt index ≤ v.totalVotingPower) :
    ∃ index ∉ faulty, index ∈ signers signature ∧ index ∈ signers signature' := by
  obtain ⟨hquorum, hbound⟩ := quorum_of_verify haddresses h
  obtain ⟨hquorum', hbound'⟩ := quorum_of_verify haddresses h'
  by_contra hnone
  push Not at hnone
  have hcommon : signers signature ∩ signers signature' ⊆ faulty := by
    intro index hindex
    obtain ⟨hin, hin'⟩ := Finset.mem_inter.mp hindex
    by_contra hnot
    exact hnone index hnot hin hin'
  have hunion := Finset.sum_le_sum_of_subset (f := v.powerAt) (Finset.union_subset hbound hbound')
  have hinter := Finset.sum_le_sum_of_subset (f := v.powerAt) hcommon
  have hsum : ∑ index ∈ signers signature ∪ signers signature', v.powerAt index +
      ∑ index ∈ signers signature ∩ signers signature', v.powerAt index = _ :=
    Finset.sum_union_inter
  rw [sum_powerAt] at hunion
  have hpower : v.quorumVotingPower = v.totalVotingPower * 2 / 3 + 1 := if_neg (by simpa using hne)
  omega

end Distinct

/-- Of four validators the first three and the last three sign, and the third one is faulty. -/
theorem quorums_intersect_four :
    ∃ index ∉ ({2} : Finset ℕ), index ∈ signers ⟨⟨[224]⟩, some 0⟩ ∧
      index ∈ signers ⟨⟨[112]⟩, some 0⟩ :=
  @quorums_intersect ⟨[⟨0, 0, 1⟩, ⟨1, 0, 1⟩, ⟨2, 0, 1⟩, ⟨3, 0, 1⟩]⟩ Unit
    ⟨fun _ _ _ => true, fun _ => some 0⟩ (by decide) (by decide) () () _ _ rfl rfl {2} (by decide)

end ValidatorVerifier
end Anthemius.Consensus

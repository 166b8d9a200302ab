import Anthemius.ExecutableBlocks
import Anthemius.VoterBitmasks
import Mathlib.Algebra.Order.BigOperators.Group.List

/-!
# Validator sets and signatures of a quorum

A validator set counts voting power. A quorum has more than two thirds of it. The signature of a
quorum is one aggregated signature with a bit mask of the validators that took part. The signature
scheme itself is a parameter.
-/
namespace Anthemius.Consensus

abbrev PublicKey := ℕ
abbrev Signature := ℕ

inductive VerifyError
  | unknownAuthor
  | tooLittleVotingPower (votingPower expectedVotingPower : ℕ)
  | emptySignature
  | invalidMultiSignature
  | failedToAggregatePubKey
  | invalidBitVec
  deriving DecidableEq

def VerifyError.display : VerifyError → String
  | unknownAuthor => "Author is unknown"
  | tooLittleVotingPower votingPower expectedVotingPower =>
    "The voting power (" ++ toString votingPower ++ ") is less than expected voting power (" ++
      toString expectedVotingPower ++ ")"
  | emptySignature => "Signature is empty"
  | invalidMultiSignature => "Multi signature is invalid"
  | failedToAggregatePubKey => "Failed to aggregate public keys"
  | invalidBitVec => "Invalid bitvec from the multi-signature"

/-- A scheme for signing messages, in which keys can be aggregated. -/
structure Bls (M : Type) where
  verify : Signature → M → PublicKey → Bool
  aggregateKeys : List PublicKey → Option PublicKey

structure AggregateSignature where
  validatorBitmask : AptosBitVec
  sig : Option Signature
  deriving DecidableEq

namespace AggregateSignature

def empty : AggregateSignature := ⟨⟨[]⟩, none⟩

end AggregateSignature

structure ValidatorConsensusInfo where
  address : Author
  publicKey : PublicKey
  votingPower : UInt64
  deriving DecidableEq

/-- The quorum, the total power and the index of an address are computed from the validators. -/
structure ValidatorVerifier where
  validatorInfos : List ValidatorConsensusInfo
  deriving DecidableEq

theorem bind_eq_ok {ε α β : Type} {x : Except ε α} {f : α → Except ε β} {b : β} :
    (x >>= f) = .ok b ↔ ∃ a, x = .ok a ∧ f a = .ok b := by
  cases x <;> simp [bind, Except.bind]

theorem exists_unit {p : Unit → Prop} : (∃ u, p u) ↔ p () :=
  ⟨fun h => h.choose_spec, fun h => ⟨(), h⟩⟩

/-- A check that some value is there. -/
def okOr {ε α : Type} (x : Option α) (err : ε) : Except ε α :=
  match x with
  | some a => .ok a
  | none => .error err

@[simp] theorem okOr_eq_ok {ε α : Type} {x : Option α} {err : ε} {a : α} :
    okOr x err = .ok a ↔ x = some a := by
  cases x <;> simp [okOr]

/-- A check that some condition holds. -/
def okIf {ε : Type} (condition : Bool) (err : ε) : Except ε Unit :=
  if condition then .ok () else .error err

@[simp] theorem okIf_eq_ok {ε : Type} {condition : Bool} {err : ε} {u : Unit} :
    okIf condition err = .ok u ↔ condition = true := by
  cases condition <;> simp [okIf]

namespace ValidatorVerifier
variable (v : ValidatorVerifier) {M : Type} (bls : Bls M)

def len : ℕ := v.validatorInfos.length

def totalVotingPower : ℕ := (v.validatorInfos.map fun info => info.votingPower.toNat).sum

def quorumVotingPower : ℕ :=
  if v.validatorInfos.isEmpty then 0 else v.totalVotingPower * 2 / 3 + 1

/-- The last index counts if an address is listed twice. -/
def addressToValidatorIndex (author : Author) : Option ℕ :=
  (v.validatorInfos.zipIdx.reverse.find? fun entry => entry.1.address == author).map Prod.snd

def getInfo (author : Author) : Option ValidatorConsensusInfo :=
  (v.addressToValidatorIndex author).bind (v.validatorInfos[·]?)

def getVotingPower (author : Author) : Option UInt64 :=
  (v.getInfo author).map ValidatorConsensusInfo.votingPower

/-! ## Voting power -/

def addVotingPower (sum : ℕ) (author : Author) : Except VerifyError ℕ :=
  (okOr (v.getVotingPower author) .unknownAuthor).map (sum + ·.toNat)

def checkVotingPower (authors : List Author) : Except VerifyError Unit := do
  let votingPower ← authors.foldlM v.addVotingPower 0
  okIf (v.quorumVotingPower ≤ votingPower) (.tooLittleVotingPower votingPower v.quorumVotingPower)

/-! ## Aggregated signatures -/

def checkNumOfVoters (numValidators : UInt16) (bitvec : AptosBitVec) : Except VerifyError Unit := do
  okIf (bitvec.numBuckets == AptosBitVec.requiredBuckets numValidators) .invalidBitVec
  okIf (bitvec.lastSetBit.all (· < numValidators)) .invalidBitVec

/-- The validators of the positions that are set. -/
def voters (bitvec : AptosBitVec) : Except VerifyError (List ValidatorConsensusInfo) :=
  bitvec.iterOnes.mapM fun index => okOr v.validatorInfos[index]? .unknownAuthor

/-- The validators that took part, when they have the power of a quorum. -/
def checkVoters (signature : AggregateSignature) :
    Except VerifyError (List ValidatorConsensusInfo) := do
  checkNumOfVoters v.len.toUInt16 signature.validatorBitmask
  let voters ← v.voters signature.validatorBitmask
  v.checkVotingPower (voters.map ValidatorConsensusInfo.address)
  pure voters

def verifyMultiSignatures (message : M) (signature : AggregateSignature) :
    Except VerifyError Unit := do
  let voters ← v.checkVoters signature
  let sig ← okOr signature.sig .emptySignature
  let key ← okOr (bls.aggregateKeys (voters.map ValidatorConsensusInfo.publicKey))
    .failedToAggregatePubKey
  okIf (bls.verify sig message key) .invalidMultiSignature

end ValidatorVerifier
end Anthemius.Consensus

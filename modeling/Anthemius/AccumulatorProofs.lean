import Anthemius.AccumulatorSiblings

/-!
# Proofs against a ledger info

A transaction info is shown to be in the ledger by the siblings on the way to the root, and a list
of them by the siblings on its left and its right.
-/
namespace Anthemius.Accumulators
open PaddedTree Outcomes Position

/-- The errors with what their texts show. -/
inductive ProofError (H : Type)
  | tooManySiblings (count : ℕ)
  | rootHashesDoNotMatch (actual expected : H)
  | newerThanLedgerInfo (transactionVersion ledgerInfoVersion : ℕ)
  | leafHashesNotEmpty
  | noSiblingsNeeded
  | tooManyLeftSiblings (count : ℕ)
  | tooManyRightSiblings (count : ℕ)
  | leafHashesEmpty
  | missingLeftSibling
  | missingRightSibling

structure LedgerInfo (H : Type) where
  version : ℕ
  transactionAccumulatorHash : H

structure AccumulatorProof (H : Type) where
  siblings : List H

structure AccumulatorRangeProof (H : Type) where
  leftSiblings : List H
  rightSiblings : List H

/-- The hash of a transaction info is a parameter of the functions below. -/
structure TransactionInfoWithProof (H T : Type) where
  ledgerInfoToTransactionInfoProof : AccumulatorProof H
  transactionInfo : T

structure TransactionInfoListWithProof (H T : Type) where
  ledgerInfoToTransactionInfosProof : AccumulatorRangeProof H
  transactionInfos : List T

variable {H T : Type} [DecidableEq H] (c : Hashing H) (hashOf : T → H)

namespace AccumulatorProof
variable (proof : AccumulatorProof H)

/-- The index is that of the ancestor at the level. -/
def verify (expectedRootHash elementHash : H) (elementIndex : ℕ) :
    Outcome (ProofError H) Unit := do
  ensure (proof.siblings.length ≤ maxAccumulatorProofDepth)
    (.tooManySiblings proof.siblings.length)
  let actualRootHash := (proof.siblings.foldl
    (fun node sibling =>
      (if node.2 % 2 = 0 then c.combine node.1 sibling else c.combine sibling node.1, node.2 / 2))
    (elementHash, elementIndex)).1
  ensure (actualRootHash = expectedRootHash)
    (.rootHashesDoNotMatch actualRootHash expectedRootHash)

end AccumulatorProof

def verifyTransactionInfo (ledgerInfo : LedgerInfo H) (transactionVersion : ℕ)
    (transactionInfo : T) (proof : AccumulatorProof H) : Outcome (ProofError H) Unit := do
  ensure (transactionVersion ≤ ledgerInfo.version)
    (.newerThanLedgerInfo transactionVersion ledgerInfo.version)
  proof.verify c ledgerInfo.transactionAccumulatorHash (hashOf transactionInfo) transactionVersion

def TransactionInfoWithProof.verify (proof : TransactionInfoWithProof H T)
    (ledgerInfo : LedgerInfo H) (transactionVersion : ℕ) : Outcome (ProofError H) Unit :=
  verifyTransactionInfo c hashOf ledgerInfo transactionVersion proof.transactionInfo
    proof.ledgerInfoToTransactionInfoProof

namespace AccumulatorRangeProof

/-- A first node that is a right child goes with a sibling on the left. -/
def joinFirst (isRight : Bool) (hashes lefts : List H) :
    Outcome (ProofError H) (List H × List H × List H) :=
  match isRight, lefts, hashes with
  | false, lefts, hashes => pure ([], hashes, lefts)
  | true, [], _ => throw .missingLeftSibling
  | true, _ :: _, [] => crash
  | true, left :: lefts, right :: hashes => pure ([c.combine left right], hashes, lefts)

/-- What is left when pairs are taken. -/
def remainder : List H → List H
  | _ :: _ :: rest => remainder rest
  | rest => rest

def joinLast (hashes rights : List H) : Outcome (ProofError H) (List H × List H) :=
  match hashes, rights with
  | [], rights => pure ([], rights)
  | _ :: _, [] => throw .missingRightSibling
  | left :: _, right :: rights => pure ([c.combine left right], rights)

/-- Two children at a time, and then the last one. -/
def joinRest (hashes rights : List H) : Outcome (ProofError H) (List H × List H) := do
  assert ((remainder hashes).length ≤ 1)
  let (last, rights) ← joinLast c (remainder hashes) rights
  pure (joinPairs c hashes ++ last, rights)

/-- The parents of a level. -/
def joinLevel (isRight : Bool) (hashes lefts rights : List H) :
    Outcome (ProofError H) (List H × List H × List H) := do
  let (first, hashes, lefts) ← joinFirst c isRight hashes lefts
  let (parents, rights) ← joinRest c hashes rights
  pure (first ++ parents, lefts, rights)

/-- The parent of a position is asserted, so there are not more rounds than levels. -/
def joinLevels : ℕ → Position → List H → List H → List H → Outcome (ProofError H) (List H)
  | 0, _, _, _, _ => crash
  | fuel + 1, position, hashes, lefts, rights =>
    if hashes.length ≤ 1 ∧ lefts = [] ∧ rights = [] then pure hashes
    else do
      let isRight ← expect position.isRightChild
      let (parents, lefts, rights) ← joinLevel c isRight hashes lefts rights
      let parent ← expect position.parent
      joinLevels fuel parent parents lefts rights

variable (proof : AccumulatorRangeProof H)

def verify (expectedRootHash : H) (firstLeafIndex : Option ℕ) (leafHashes : List H) :
    Outcome (ProofError H) Unit :=
  match firstLeafIndex with
  | none => do
    ensure (leafHashes = []) .leafHashesNotEmpty
    ensure (proof.leftSiblings = [] ∧ proof.rightSiblings = []) .noSiblingsNeeded
  | some first => do
    ensure (proof.leftSiblings.length ≤ maxAccumulatorProofDepth)
      (.tooManyLeftSiblings proof.leftSiblings.length)
    ensure (proof.rightSiblings.length ≤ maxAccumulatorProofDepth)
      (.tooManyRightSiblings proof.rightSiblings.length)
    ensure (leafHashes ≠ []) .leafHashesEmpty
    let hashes ← joinLevels c 66 (fromLeafIndex first) leafHashes proof.leftSiblings
      proof.rightSiblings
    let root ← expect hashes.head?
    ensure (root = expectedRootHash) (.rootHashesDoNotMatch root expectedRootHash)

end AccumulatorRangeProof

def TransactionInfoListWithProof.verify (proof : TransactionInfoListWithProof H T)
    (ledgerInfo : LedgerInfo H) (firstTransactionInfoVersion : Option ℕ) :
    Outcome (ProofError H) Unit :=
  proof.ledgerInfoToTransactionInfosProof.verify c ledgerInfo.transactionAccumulatorHash
    firstTransactionInfoVersion (proof.transactionInfos.map hashOf)

/-! ## One transaction info -/

variable {c} {leaves : List H}

omit [DecidableEq H] in
theorem foldl_eq_climb (siblings : List H) (hash : H) (index : ℕ) :
    (siblings.foldl
      (fun node sibling =>
        (if node.2 % 2 = 0 then c.combine node.1 sibling else c.combine sibling node.1, node.2 / 2))
      (hash, index)).1 = climb c hash index siblings := by
  induction siblings generalizing hash index with
  | nil => rfl
  | cons sibling siblings ih => exact ih _ _

theorem AccumulatorProof.verify_returns {proof : AccumulatorProof H} {root hash : H} {i : ℕ} :
    Returns (proof.verify c root hash i) () ↔
      proof.siblings.length ≤ maxAccumulatorProofDepth ∧ climb c hash i proof.siblings = root := by
  simp only [AccumulatorProof.verify, returns_bind, returns_ensure, foldl_eq_climb, exists_const]

/-- The hashes of transaction infos are told apart from the other nodes. -/
def IsInfo (hashOf : T → H) (hash : H) : Prop := ∃ info, hashOf info = hash

omit [DecidableEq H] in
theorem isInfo_of_mem {infos : List T} : ∀ h ∈ infos.map hashOf, IsInfo hashOf h := by
  intro h hh
  obtain ⟨info, -, rfl⟩ := List.mem_map.mp hh
  exact ⟨info, rfl⟩

omit [DecidableEq H] in
/-- A path from an info to the root starts at the leaf of its place. -/
theorem getElem?_of_climb_eq_root {leaf : H → Prop} (hc : c.Separates leaf)
    (hleaves : ∀ h ∈ leaves, leaf h) {hash : H} (hhash : leaf hash) {i : ℕ}
    (hi : i < leaves.length) {path : List H} (h : climb c hash i path = root c leaves) :
    leaves[i]? = some hash := by
  obtain ⟨l, hl, hnode⟩ := climb_eq_node hc hleaves h
  rw [Nat.zero_mul, Nat.zero_add] at hnode
  obtain ⟨rfl, hleaf⟩ := getElem?_of_leaf hc (hnode ▸ hhash)
  have hlt : i < 2 ^ path.length := by
    rw [← Nat.zero_add path.length, hl]
    exact lt_of_lt_of_le hi (Nat.le_pow_clog one_lt_two _)
  rw [← hnode, Nat.mod_eq_of_lt hlt] at hleaf
  exact hleaf

open MerkleAccumulatorView in
/-- What is verified is the leaf at the version, and the proofs from storage are verified. Storage
has no more leaves than there are positions, and no proof for the last of them. -/
theorem TransactionInfoWithProof.verify_spec (hc : c.Separates (IsInfo hashOf)) (infos : List T)
    (ledgerInfo : LedgerInfo H) (hversion : ledgerInfo.version + 1 = infos.length)
    (hroot : ledgerInfo.transactionAccumulatorHash = root c (infos.map hashOf)) (v : ℕ)
    (info : T) :
    (∀ siblings, Returns (verify c hashOf ⟨⟨siblings⟩, info⟩ ledgerInfo v) () →
      v < infos.length ∧ (infos.map hashOf)[v]? = some (hashOf info)) ∧
    ∀ reader, Holds c reader (infos.map hashOf) → infos.length ≤ maxAccumulatorLeaves →
      (infos.map hashOf)[v]? = some (hashOf info) →
      (∀ siblings, Returns (getProof c reader infos.length v) siblings →
        Returns (verify c hashOf ⟨⟨siblings⟩, info⟩ ledgerInfo v) ()) ∧
      (v + 1 < maxAccumulatorLeaves → ∃ siblings,
        Returns (getProof c reader infos.length v) siblings) := by
  have hlength : (infos.map hashOf).length = infos.length := List.length_map hashOf
  rw [show maxAccumulatorLeaves = 2 ^ 63 from rfl]
  simp only [verify, verifyTransactionInfo, returns_bind, returns_ensure, exists_const, hroot,
    AccumulatorProof.verify_returns]
  refine ⟨fun siblings h => ?_, fun reader hreader hmax hleaf => ?_⟩
  · obtain ⟨hle, -, hclimb⟩ := h
    refine ⟨by omega, getElem?_of_climb_eq_root hc (isInfo_of_mem hashOf) ⟨info, rfl⟩ ?_ hclimb⟩
    rw [hlength]
    omega
  · have hv : v < (infos.map hashOf).length := (List.getElem?_eq_some_iff.mp hleaf).1
    rw [← hlength] at hmax ⊢
    refine ⟨fun siblings h => ?_, fun hlt => ⟨_, getProof_eq hreader hmax hv hlt⟩⟩
    obtain rfl := h.eq (getProof_eq hreader hmax hv (lt_of_getProof hmax h))
    exact ⟨by omega, by rw [length_siblings]; exact clog_le hmax, climb_root hleaf⟩

theorem TransactionInfoWithProof.verify_spec_two :
    Returns (verify (Term.hashing ℕ) Term.leaf ⟨⟨[.leaf 10]⟩, 20⟩
      ⟨1, .combine (.leaf 10) (.leaf 20)⟩ 1) () ∧
    1 < [10, 20].length ∧ ([10, 20].map Term.leaf)[1]? = some (.leaf 20) := by
  have h : Returns (verify (Term.hashing ℕ) Term.leaf ⟨⟨[.leaf 10]⟩, 20⟩
    ⟨1, .combine (.leaf 10) (.leaf 20)⟩ 1) () := rfl
  exact ⟨h, (verify_spec Term.leaf Term.separates [10, 20] _ rfl rfl 1 20).1 _ h⟩

/-! ## A list of transaction infos -/

namespace AccumulatorRangeProof
variable {hashes lefts rights : List H}

omit [DecidableEq H] in
theorem joinPairs_append (xs ys : List H) :
    joinPairs c (xs ++ ys) = joinPairs c xs ++ joinPairs c (remainder xs ++ ys) := by
  induction xs using remainder.induct with
  | case1 a b rest ih =>
    rw [List.cons_append, List.cons_append, joinPairs, joinPairs, remainder, ih, List.cons_append]
  | case2 rest hrest =>
    rcases rest with _ | ⟨a, _ | ⟨b, rest⟩⟩
    · rfl
    · rfl
    · exact absurd rfl (hrest a b rest)

omit [DecidableEq H] in
theorem length_remainder (xs : List H) : (remainder xs).length = xs.length % 2 := by
  induction xs using remainder.induct with
  | case1 a b rest ih =>
    rw [remainder, ih, List.length_cons, List.length_cons]
    omega
  | case2 rest hrest =>
    rcases rest with _ | ⟨a, _ | ⟨b, rest⟩⟩
    · rfl
    · rfl
    · exact absurd rfl (hrest a b rest)

omit [DecidableEq H] in
theorem joinLast_returns {xs last rights' : List H} (hxs : xs.length ≤ 1) :
    Returns (joinLast c xs rights) (last, rights') ↔
      ∃ after, rights = after ++ rights' ∧ after.length = xs.length ∧
        last = joinPairs c (xs ++ after) := by
  rcases xs with _ | ⟨x, _ | ⟨y, rest⟩⟩
  · simp only [joinLast, returns_pure, Prod.mk.injEq, List.length_nil, List.length_eq_zero_iff]
    constructor
    · rintro ⟨rfl, rfl⟩
      exact ⟨[], rfl, rfl, rfl⟩
    · rintro ⟨_, rfl, rfl, rfl⟩
      exact ⟨rfl, rfl⟩
  · rcases rights with _ | ⟨right, rights⟩
    · simp only [joinLast, returns_throw, false_iff]
      rintro ⟨after, hafter, hlength, -⟩
      rw [(List.append_eq_nil_iff.mp hafter.symm).1] at hlength
      cases hlength
    · simp only [joinLast, returns_pure, Prod.mk.injEq]
      constructor
      · rintro ⟨rfl, rfl⟩
        exact ⟨[right], rfl, rfl, rfl⟩
      · rintro ⟨after, hafter, hlength, rfl⟩
        obtain ⟨a, rfl⟩ := List.length_eq_one_iff.mp hlength
        obtain ⟨rfl, rfl⟩ := List.cons.inj hafter
        exact ⟨rfl, rfl⟩
  · simp at hxs

omit [DecidableEq H] in
theorem joinRest_returns {parents rights' : List H} :
    Returns (joinRest c hashes rights) (parents, rights') ↔
      ∃ after, rights = after ++ rights' ∧ after.length = hashes.length % 2 ∧
        parents = joinPairs c (hashes ++ after) := by
  have hle : (remainder hashes).length ≤ 1 := by
    rw [length_remainder]
    omega
  simp only [joinRest, returns_bind, returns_assert, returns_pure, Prod.mk.injEq, Prod.exists,
    joinLast_returns hle]
  rw [length_remainder]
  constructor
  · rintro ⟨-, -, last, _, ⟨after, hafter, hlength, rfl⟩, rfl, rfl⟩
    exact ⟨after, hafter, hlength, (joinPairs_append _ _).symm⟩
  · rintro ⟨after, hafter, hlength, rfl⟩
    exact ⟨(), by omega, _, rights', ⟨after, hafter, hlength, rfl⟩, (joinPairs_append _ _).symm,
      rfl⟩

omit [DecidableEq H] in
/-- A level joins pairs, after a sibling is put before the first node or behind the last one. -/
theorem joinLevel_returns {isRight : Bool} (hne : hashes ≠ []) {parents lefts' rights' : List H} :
    Returns (joinLevel c isRight hashes lefts rights) (parents, lefts', rights') ↔
      ∃ before after, lefts = before ++ lefts' ∧ rights = after ++ rights' ∧
        before.length = isRight.toNat ∧ after.length = (isRight.toNat + hashes.length) % 2 ∧
        parents = joinPairs c (before ++ hashes ++ after) := by
  simp only [joinLevel, returns_bind, returns_pure, Prod.mk.injEq, Prod.exists, joinRest_returns]
  cases isRight with
  | false =>
    simp only [joinFirst, returns_pure, Prod.mk.injEq, Bool.toNat_false, List.length_eq_zero_iff,
      Nat.zero_add]
    constructor
    · rintro ⟨_, _, _, ⟨rfl, rfl, rfl⟩, _, _, ⟨after, hafter, hlength, rfl⟩, rfl, rfl, rfl⟩
      exact ⟨[], after, rfl, hafter, rfl, hlength, rfl⟩
    · rintro ⟨_, after, rfl, hafter, rfl, hlength, rfl⟩
      exact ⟨_, _, _, ⟨rfl, rfl, rfl⟩, _, _, ⟨after, hafter, hlength, rfl⟩, rfl, rfl, rfl⟩
  | true =>
    obtain ⟨hash, hashes, rfl⟩ := List.exists_cons_of_ne_nil hne
    rcases lefts with _ | ⟨left, lefts⟩
    · simp only [joinFirst, returns_throw, false_and, exists_false, false_iff]
      rintro ⟨before, -, hbefore, -, hlength, -⟩
      rw [(List.append_eq_nil_iff.mp hbefore.symm).1] at hlength
      cases hlength
    · simp only [joinFirst, returns_pure, Prod.mk.injEq, Bool.toNat_true, List.length_cons]
      constructor
      · rintro ⟨_, _, _, ⟨rfl, rfl, rfl⟩, _, _, ⟨after, hafter, hlength, rfl⟩, rfl, rfl, rfl⟩
        exact ⟨[left], after, rfl, hafter, rfl, by omega, rfl⟩
      · rintro ⟨before, after, hbefore, hafter, hone, hlength, rfl⟩
        obtain ⟨a, rfl⟩ := List.length_eq_one_iff.mp hone
        obtain ⟨rfl, rfl⟩ := List.cons.inj hbefore
        exact ⟨_, _, _, ⟨rfl, rfl, rfl⟩, _, _, ⟨after, hafter, by omega, rfl⟩, rfl, rfl, rfl⟩

variable {fuel l k : ℕ}

theorem parent_le (h : Fits l k) : 2 ^ (l + 1) * (2 * (k / 2) + 1) ≤ 2 ^ 64 := by
  have hlt := h.lt_two_pow
  calc 2 ^ (l + 1) * (2 * (k / 2) + 1) = 2 ^ l * (2 * (2 * (k / 2) + 1)) := by ring
    _ ≤ 2 ^ 64 := mul_le_two_pow h.level_lt.le (by omega)

omit [DecidableEq H] in
/-- One round for nodes that are not yet the root. -/
theorem joinLevels_succ (hne : hashes ≠ []) (hle : 2 ^ l * (2 * k + 1) ≤ 2 ^ 64)
    (hmore : ¬ (hashes.length ≤ 1 ∧ lefts = [] ∧ rights = [])) {result : List H} :
    Returns (joinLevels c (fuel + 1) (pos l k) hashes lefts rights) result ↔
      Fits l k ∧ ∃ before after lefts' rights', lefts = before ++ lefts' ∧
        rights = after ++ rights' ∧ before.length = k % 2 ∧
        after.length = (k % 2 + hashes.length) % 2 ∧
        Returns (joinLevels c fuel (pos (l + 1) (k / 2))
          (joinPairs c (before ++ hashes ++ after)) lefts' rights') result := by
  have hbit : (k % 2 == 1).toNat = k % 2 := by
    obtain hzero | hone := Nat.mod_two_eq_zero_or_one k
    · rw [hzero]
      rfl
    · rw [hone]
      rfl
  rw [joinLevels, if_neg hmore]
  simp only [returns_bind, returns_expect, Prod.exists]
  constructor
  · rintro ⟨b, hb, parents, lefts', rights', hlevel, parent, hparent, hnext⟩
    have hfits := (valid_of_isRightChild hb).fits hle
    rw [hfits.isRightChild_eq, Option.some.injEq] at hb
    rw [hfits.parent_eq, Option.some.injEq] at hparent
    subst hb hparent
    rw [joinLevel_returns hne, hbit] at hlevel
    obtain ⟨before, after, hlefts, hrights, hbefore, hafter, rfl⟩ := hlevel
    exact ⟨hfits, before, after, lefts', rights', hlefts, hrights, hbefore, hafter, hnext⟩
  · rintro ⟨hfits, before, after, lefts', rights', hlefts, hrights, hbefore, hafter, hnext⟩
    refine ⟨_, hfits.isRightChild_eq, _, lefts', rights', ?_, _, hfits.parent_eq, hnext⟩
    rw [joinLevel_returns hne, hbit]
    exact ⟨before, after, hlefts, hrights, hbefore, hafter, rfl⟩

omit [DecidableEq H] in
/-- Levels that end at a node of the tree start at a row of nodes below it. -/
theorem row_of_joinLevels {leaf : H → Prop} (hc : c.Separates leaf) {leaves : List H}
    (hleaves : ∀ h ∈ leaves, leaf h) {d j : ℕ} {result : List H}
    (hne : hashes ≠ []) (hle : 2 ^ l * (2 * k + 1) ≤ 2 ^ 64)
    (h : Returns (joinLevels c fuel (pos l k) hashes lefts rights) result)
    (hroot : result.head? = some (node c leaves d j)) :
    ∃ t r, t + r = d ∧ hashes = row c leaves t (j * 2 ^ r + k % 2 ^ r) hashes.length ∧
      lefts.length = (k % 2 ^ r).bits.count true := by
  induction fuel generalizing l k hashes lefts rights with
  | zero => exact absurd h returns_crash
  | succ fuel ih =>
    have hpos : 0 < hashes.length := List.length_pos_iff.mpr hne
    by_cases hmore : hashes.length ≤ 1 ∧ lefts = [] ∧ rights = []
    · rw [joinLevels, if_pos hmore, returns_pure] at h
      obtain ⟨hash, rfl⟩ := List.length_eq_one_iff.mp (by omega : hashes.length = 1)
      rw [← h, List.head?_cons, Option.some.injEq] at hroot
      refine ⟨d, 0, rfl, ?_, ?_⟩
      · rw [pow_zero, Nat.mod_one, Nat.mul_one, Nat.add_zero, List.length_singleton, row_succ,
          hroot]
        rfl
      · rw [hmore.2.1, pow_zero, Nat.mod_one]
        rfl
    · obtain ⟨hfits, before, after, lefts', rights', hlefts, hrights, hbefore, hafter, hnext⟩ :=
        (joinLevels_succ hne hle hmore).mp h
      have hlength := length_joinPairs (c := c) (before ++ hashes ++ after)
      have htotal : (before ++ hashes ++ after).length = k % 2 + hashes.length + after.length := by
        rw [List.length_append, List.length_append, hbefore]
      have hparents : joinPairs c (before ++ hashes ++ after) ≠ [] :=
        List.length_pos_iff.mp (by omega)
      obtain ⟨t, r, hd, hrow, hcount⟩ := ih hparents (parent_le hfits) hnext
      obtain ⟨t, rfl, hpadded⟩ := row_of_joinPairs hc hleaves (List.length_pos_iff.mpr hparents)
        (by omega) hrow
      have hplace : k % 2 ^ (r + 1) = 2 * (k / 2 % 2 ^ r) + k % 2 := mod_two_pow_succ k r
      have hones : lefts.length = (k % 2 ^ (r + 1)).bits.count true := by
        rw [hplace, count_bits_two_mul_add (Nat.mod_lt k two_pos), hlefts, List.length_append,
          hbefore, hcount, Nat.add_comm]
      refine ⟨t, r + 1, by omega, ?_, hones⟩
      -- the row is what is left when the first and the last sibling are taken away
      have hdrop : hashes = ((before ++ hashes ++ after).drop (k % 2)).take hashes.length := by
        rw [← hbefore, List.append_assoc, List.drop_left, List.take_left]
      rw [hpadded, show 2 * (joinPairs c (before ++ hashes ++ after)).length =
        k % 2 + (hashes.length + after.length) by omega, row_add, row_add,
        List.drop_left' (length_row _), List.take_left' (length_row _)] at hdrop
      rw [show j * 2 ^ (r + 1) + k % 2 ^ (r + 1) =
        2 * (j * 2 ^ r + k / 2 % 2 ^ r) + k % 2 by rw [hplace]; ring]
      exact hdrop

omit [DecidableEq H] in
/-- The row from leaf `f` to leaf `g` goes up to the root with the siblings on its two sides. -/
theorem joinLevels_siblings {leaves : List H} {f g count : ℕ} (hfg : f ≤ g)
    (hg : g < leaves.length) (hword : f + 1 < 2 ^ 63) 
    (hcount : l + count = Nat.clog 2 leaves.length)
    (hmax : Nat.clog 2 leaves.length ≤ 63) (hfuel : count < fuel) :
    Returns (joinLevels c fuel (pos l (f / 2 ^ l))
        (row c leaves l (f / 2 ^ l) (g / 2 ^ l + 1 - f / 2 ^ l))
        (sideSiblings c leaves f 0 l count) (sideSiblings c leaves g 1 l count))
      [root c leaves] := by
  induction fuel generalizing l count with
  | zero => omega
  | succ fuel ih =>
    cases count with
    | zero =>
      obtain rfl : l = Nat.clog 2 leaves.length := hcount
      rw [div_root (by omega), div_root hg]
      rw [joinLevels, if_pos ⟨by rw [length_row], rfl, rfl⟩, returns_pure, row_succ]
      rfl
    | succ count =>
      have hle : f / 2 ^ l ≤ g / 2 ^ l := Nat.div_le_div_right hfg
      have hfits : Fits l (f / 2 ^ l) := fits_of_lt hword (by omega)
      have hend : g / 2 ^ l / 2 * 2 ^ (l + 1) < leaves.length := by
        rw [← div_two_pow_succ]
        exact lt_of_le_of_lt (Nat.div_mul_le_self g _) hg
      have hnext := @ih (l + 1) count (by omega) (by omega)
      rw [div_two_pow_succ, div_two_pow_succ] at hnext
      rw [sideSiblings_succ, sideSiblings_succ]
      refine (joinLevels_succ ?_ (by rw [Fits] at hfits; omega) ?_).mpr
        ⟨hfits, _, _, _, _, rfl, rfl, length_leftEnd _ _, ?_, ?_⟩
      · rw [← List.length_pos_iff, length_row]
        omega
      · rintro ⟨hone, hleft, hright⟩
        rw [length_row] at hone
        have hleft' := congrArg List.length hleft
        have hright' := congrArg List.length hright
        rw [List.length_append, length_leftEnd, List.length_nil] at hleft'
        rw [List.length_append, length_rightEnd, List.length_nil] at hright'
        omega
      · rw [length_rightEnd, length_row]
        omega
      · rw [row_ends hle, joinPairs_row]
        · exact hnext
        · rw [show f / 2 ^ l / 2 + (g / 2 ^ l / 2 + 1 - f / 2 ^ l / 2) = g / 2 ^ l / 2 + 1 by omega,
            Nat.add_mul]
          omega

omit [DecidableEq H] in
/-- There are never more rounds than the bound. -/
theorem joinLevels_fuel (hne : hashes ≠ []) (hle : 2 ^ l * (2 * k + 1) ≤ 2 ^ 64)
    (hfuel : 64 < l + fuel) {result : List H} :
    Returns (joinLevels c (fuel + 1) (pos l k) hashes lefts rights) result ↔
      Returns (joinLevels c fuel (pos l k) hashes lefts rights) result := by
  induction fuel generalizing l k hashes lefts rights with
  | zero =>
    have hpow : 2 ^ l ≤ 2 ^ 64 := (Nat.le_mul_of_pos_right _ (by omega)).trans hle
    have hl := (Nat.pow_le_pow_iff_right one_lt_two).mp hpow
    omega
  | succ fuel ih =>
    by_cases hmore : hashes.length ≤ 1 ∧ lefts = [] ∧ rights = []
    · rw [joinLevels, if_pos hmore, joinLevels, if_pos hmore]
    · have hpos : 0 < hashes.length := List.length_pos_iff.mpr hne
      rw [joinLevels_succ hne hle hmore, joinLevels_succ hne hle hmore]
      refine and_congr_right fun hfits => ?_
      refine exists_congr fun before => exists_congr fun after => exists_congr fun lefts' =>
        exists_congr fun rights' => and_congr_right fun _ => and_congr_right fun _ =>
          and_congr_right fun hbefore => and_congr_right fun hafter => ?_
      refine ih ?_ (parent_le hfits) (by omega)
      rw [← List.length_pos_iff, length_joinPairs, List.length_append, List.length_append]
      omega

theorem verify_returns {proof : AccumulatorRangeProof H} {root : H} {v : ℕ} :
    Returns (proof.verify c root (some v) hashes) () ↔
      proof.leftSiblings.length ≤ maxAccumulatorProofDepth ∧
      proof.rightSiblings.length ≤ maxAccumulatorProofDepth ∧ hashes ≠ [] ∧
      ∃ result, Returns (joinLevels c 66 (fromLeafIndex v) hashes proof.leftSiblings
        proof.rightSiblings) result ∧ result.head? = some root := by
  simp only [verify, returns_bind, returns_ensure, returns_expect, exists_const]
  refine and_congr_right fun _ => and_congr_right fun _ => and_congr_right fun _ =>
    exists_congr fun result => and_congr_right fun _ => ?_
  constructor
  · rintro ⟨_, hhead, rfl⟩
    exact hhead
  · intro hhead
    exact ⟨root, hhead, rfl⟩

omit [DecidableEq H] in
theorem length_sideSiblings_le {leaves : List H} (i side count : ℕ) :
    (sideSiblings c leaves i side l count).length ≤ count := by
  rw [sideSiblings, List.length_map]
  refine (List.length_filter_le _ _).trans ?_
  rw [List.length_range']

theorem fromLeafIndex_of_lt {v : ℕ} (hv : v < 2 ^ 63) : fromLeafIndex v = pos 0 v := by
  rw [fromLeafIndex_eq, Nat.mod_eq_of_lt hv]

theorem leaves_of_verify {leaf : H → Prop} (hc : c.Separates leaf) {leaves : List H}
    (hleaves : ∀ h ∈ leaves, leaf h) (hhashes : ∀ h ∈ hashes, leaf h)
    {proof : AccumulatorRangeProof H} {v : ℕ} (hv : v < leaves.length) (hword : v < 2 ^ 63)
    (h : Returns (proof.verify c (root c leaves) (some v) hashes) ()) :
    v + hashes.length ≤ leaves.length ∧ hashes = (leaves.drop v).take hashes.length := by
  obtain ⟨-, -, hne, result, hresult, hhead⟩ := verify_returns.mp h
  rw [fromLeafIndex_of_lt hword] at hresult
  obtain ⟨t, r, hd, hrow, -⟩ := row_of_joinLevels hc hleaves hne (by omega) hresult hhead
  rw [Nat.zero_mul, Nat.zero_add] at hrow
  obtain ⟨rfl, hend⟩ := row_of_leaf hc (List.length_pos_iff.mpr hne) (hrow ▸ hhashes)
  have hplace : v % 2 ^ r = v := by
    refine Nat.mod_eq_of_lt (lt_of_lt_of_le hv ?_)
    rw [← Nat.zero_add r, hd]
    exact Nat.le_pow_clog one_lt_two _
  rw [hplace] at hrow hend
  exact ⟨hend, hrow.trans (row_zero hend)⟩

theorem verify_sideSiblings {leaves : List H} (hmax : leaves.length ≤ 2 ^ 63) {first last : ℕ}
    (hle : first ≤ last) (hlast : last < leaves.length) (hword : first + 1 < 2 ^ 63) :
    Returns (verify c ⟨sideSiblings c leaves first 0 0 (Nat.clog 2 leaves.length),
        sideSiblings c leaves last 1 0 (Nat.clog 2 leaves.length)⟩ (root c leaves) (some first)
      ((leaves.drop first).take (last + 1 - first))) () := by
  have hclog : Nat.clog 2 leaves.length ≤ 63 := Nat.clog_le_of_le_pow hmax
  have hlevels := joinLevels_siblings (c := c) (l := 0) hle hlast hword (Nat.zero_add _) hclog
    (by omega : _ < 66)
  rw [pow_zero, Nat.div_one, Nat.div_one, row_zero (by omega)] at hlevels
  refine verify_returns.mpr ⟨(length_sideSiblings_le _ _ _).trans hclog,
    (length_sideSiblings_le _ _ _).trans hclog, ?_, [root c leaves], ?_, rfl⟩
  · rw [← List.length_pos_iff, List.length_take, List.length_drop]
    omega
  · rwa [fromLeafIndex_of_lt (by omega)]

end AccumulatorRangeProof

open MerkleAccumulatorView AccumulatorRangeProof in
/-- What is verified are the leaves from the version on just when the version is in the ledger. The
proofs from storage are verified. -/
theorem TransactionInfoListWithProof.verify_list_spec (hc : c.Separates (IsInfo hashOf))
    (infos : List T) (ledgerInfo : LedgerInfo H)
    (hversion : ledgerInfo.version + 1 = infos.length)
    (hroot : ledgerInfo.transactionAccumulatorHash = root c (infos.map hashOf)) (v : ℕ) :
    (∀ proof : TransactionInfoListWithProof H T, v < 2 ^ 63 → proof.transactionInfos ≠ [] →
      Returns (proof.verify c hashOf ledgerInfo (some v)) () →
      (v ≤ ledgerInfo.version ↔ v + proof.transactionInfos.length ≤ infos.length ∧
        proof.transactionInfos.map hashOf =
          ((infos.map hashOf).drop v).take proof.transactionInfos.length)) ∧
    ∀ reader, Holds c reader (infos.map hashOf) → infos.length ≤ maxAccumulatorLeaves →
      ∀ part : List T, part ≠ [] → v + part.length ≤ infos.length →
      part.map hashOf = ((infos.map hashOf).drop v).take part.length →
      (∀ lefts rights,
        Returns (getRangeProof c reader infos.length (some v) part.length) (lefts, rights) →
        Returns (verify c hashOf ⟨⟨lefts, rights⟩, part⟩ ledgerInfo (some v)) ()) ∧
      (v + part.length + 1 < maxAccumulatorLeaves → ∃ proof,
        Returns (getRangeProof c reader infos.length (some v) part.length) proof) := by
  have hlength : (infos.map hashOf).length = infos.length := List.length_map hashOf
  rw [show maxAccumulatorLeaves = 2 ^ 63 from rfl]
  simp only [verify, hroot]
  refine ⟨fun proof hv hne h => ?_, fun reader hreader hmax part hne hle hpart => ?_⟩
  · have hpos : 0 < proof.transactionInfos.length := List.length_pos_iff.mpr hne
    constructor
    · intro hle
      have hspec := leaves_of_verify hc (isInfo_of_mem hashOf) (isInfo_of_mem hashOf)
        (by omega) hv h
      rwa [List.length_map, List.length_map] at hspec
    · rintro ⟨hend, -⟩
      omega
  · have hpos : 0 < part.length := List.length_pos_iff.mpr hne
    obtain ⟨last, hlast⟩ : ∃ last, v + part.length = last + 1 :=
      ⟨v + part.length - 1, by omega⟩
    rw [← hlength] at hmax ⊢
    rw [show part.length = last + 1 - v by omega] at hpart ⊢
    refine ⟨fun lefts rights h => ?_, fun hlt => ⟨_, getRangeProof_eq hreader hmax (by omega)
      (by omega) (by omega)⟩⟩
    have hword := lt_of_getRangeProof hmax h
    cases h.eq (getRangeProof_eq hreader hmax (by omega) (by omega) (by omega))
    rw [hpart]
    exact verify_sideSiblings hmax (by omega) (by omega) (by omega)

theorem TransactionInfoListWithProof.verify_list_spec_two :
    Returns (verify (Term.hashing ℕ) Term.leaf ⟨⟨[], []⟩, [10, 20]⟩
      ⟨1, .combine (.leaf 10) (.leaf 20)⟩ (some 0)) () ∧
    0 + 2 ≤ 2 ∧ [10, 20].map Term.leaf = (([10, 20].map Term.leaf).drop 0).take 2 := by
  have h : Returns (verify (Term.hashing ℕ) Term.leaf ⟨⟨[], []⟩, [10, 20]⟩
      ⟨1, .combine (.leaf 10) (.leaf 20)⟩ (some 0)) () := rfl
  exact ⟨h, ((verify_list_spec Term.leaf Term.separates [10, 20] _ rfl rfl 0).1 _ (by decide)
    (by decide) h).mp (by decide)⟩

/-- A ledger with one transaction accepts it at any version. -/
theorem TransactionInfoListWithProof.verify_beyond :
    Returns (verify (Term.hashing ℕ) Term.leaf ⟨⟨[], []⟩, [10]⟩ ⟨0, .leaf 10⟩ (some 5)) () ∧
      root (Term.hashing ℕ) ([10].map Term.leaf) = .leaf 10 ∧ ¬ 5 + [10].length ≤ [10].length :=
  ⟨rfl, rfl, by decide⟩

end Anthemius.Accumulators

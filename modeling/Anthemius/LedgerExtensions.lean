import Anthemius.AccumulatorProofs
import Anthemius.AccumulatorRoots

/-!
# Extensions of a ledger

A client with an accumulator checks that a newer ledger extends it, by the new full trees or by a
list of transaction infos that starts in its own ledger.
-/
namespace Anthemius.Accumulators
open PaddedTree BitWords Outcomes Position MerkleAccumulatorView

/-- The errors with what their texts show. -/
inductive ExtensionError (H : Type)
  | targetMustBeNewer (targetVersion version : ℕ)
  | accumulator (err : AccumulatorError H)
  | notAtSameVersion (ledgerInfoVersion accumulatorVersion : ℕ)
  | rootHashesMustMatch (ledgerInfoRoot accumulatorRoot : H)
  | notConsistentAfterProof (err : ExtensionError H)
  | transactionListTooNew (expected first : ℕ)
  | forkHappens
  | transactionInfosNotEmpty

section Model
variable {H T : Type} [DecidableEq H] (c : Hashing H) (hashOf : T → H)

structure TransactionAccumulatorSummary (H : Type) where
  accumulator : InMemoryAccumulator H

namespace TransactionAccumulatorSummary
variable (summary : TransactionAccumulatorSummary H)

def version : ℕ := summary.accumulator.version

def rootHash : H := summary.accumulator.rootHash

def verifyConsistency (ledgerInfo : LedgerInfo H) : Outcome (ExtensionError H) Unit := do
  ensure (ledgerInfo.version = summary.version)
    (.notAtSameVersion ledgerInfo.version summary.version)
  ensure (ledgerInfo.transactionAccumulatorHash = summary.rootHash)
    (.rootHashesMustMatch ledgerInfo.transactionAccumulatorHash summary.rootHash)

def tryExtendWithProof (subtrees : List H) (targetLi : LedgerInfo H) :
    Outcome (ExtensionError H) (TransactionAccumulatorSummary H) := do
  ensure (targetLi.version ≥ summary.version) (.targetMustBeNewer targetLi.version summary.version)
  let numNewTxns := targetLi.version - summary.version
  let extended ← mapError .accumulator
    (summary.accumulator.appendSubtrees c subtrees numNewTxns)
  mapError .notConsistentAfterProof (verifyConsistency ⟨extended⟩ targetLi)
  pure ⟨extended⟩

end TransactionAccumulatorSummary

/-- The accumulator right before the list is made of the left siblings. -/
def verifyOverlap (leftSiblings : List H) (firstVersion : ℕ) (overlap : List H) (rootHash : H) :
    Outcome (ExtensionError H) Unit := do
  let before ← mapError .accumulator (InMemoryAccumulator.new c leftSiblings.reverse firstVersion)
  let accuFromProof ← expect (before.append c overlap)
  ensure (accuFromProof.rootHash = rootHash) .forkHappens

/-- A list that is all in the past is not checked. -/
def TransactionInfoListWithProof.verifyExtendsLedger (proof : TransactionInfoListWithProof H T)
    (numTxnsInLedger : ℕ) (rootHash : H) (firstTransactionInfoVersion : Option ℕ) :
    Outcome (ExtensionError H) ℕ :=
  match firstTransactionInfoVersion with
  | some firstVersion => do
    ensure (firstVersion ≤ numTxnsInLedger) (.transactionListTooNew numTxnsInLedger firstVersion)
    let numOverlapTxns := numTxnsInLedger - firstVersion
    if numOverlapTxns > proof.transactionInfos.length then
      pure proof.transactionInfos.length
    else do
      verifyOverlap c proof.ledgerInfoToTransactionInfosProof.leftSiblings firstVersion
        ((proof.transactionInfos.take numOverlapTxns).map hashOf) rootHash
      pure numOverlapTxns
  | none => do
    ensure (proof.transactionInfos = []) .transactionInfosNotEmpty
    pure 0

end Model

/-! ## Roots tell the full trees -/

namespace InMemoryAccumulator
variable {H : Type} {c : Hashing H} {roots roots' subtrees leaves : List H} {n : ℕ}

theorem computeRootLoop_zero (fuel : ℕ) (hash : H) :
    computeRootLoop c fuel 0 roots hash = some hash := by
  cases fuel with
  | zero => rfl
  | succ fuel => rw [computeRootLoop.eq_def]; rfl

theorem computeRootLoop_inj (hc : c.Injective) {fuel b : ℕ} {hash hash' x : H} (hb : b < 2 ^ fuel)
    (hlength : roots.length = b.bits.count true) (hlength' : roots'.length = b.bits.count true)
    (h : computeRootLoop c fuel b roots hash = some x)
    (h' : computeRootLoop c fuel b roots' hash' = some x) : roots = roots' ∧ hash = hash' := by
  induction fuel generalizing b roots roots' hash hash' with
  | zero =>
    obtain rfl : b = 0 := by omega
    rw [computeRootLoop_zero, Option.some.injEq] at h h'
    rw [List.eq_nil_of_length_eq_zero hlength, List.eq_nil_of_length_eq_zero hlength', h, h']
    exact ⟨rfl, rfl⟩
  | succ fuel ih =>
    obtain ⟨q, rfl | rfl⟩ := b.even_or_odd'
    · by_cases hq : q = 0
      · subst hq
        rw [Nat.mul_zero, computeRootLoop_zero, Option.some.injEq] at h h'
        rw [List.eq_nil_of_length_eq_zero hlength, List.eq_nil_of_length_eq_zero hlength', h, h']
        exact ⟨rfl, rfl⟩
      · rw [computeRootLoop_even hq] at h h'
        rw [count_bits_two_mul] at hlength hlength'
        obtain ⟨hroots, hhash⟩ := ih (by omega) hlength hlength' h h'
        exact ⟨hroots, (hc.combine hhash).1⟩
    · rw [count_bits_two_mul_add_one] at hlength hlength'
      obtain ⟨a, rest, rfl⟩ := List.exists_cons_of_length_eq_add_one hlength
      obtain ⟨a', rest', rfl⟩ := List.exists_cons_of_length_eq_add_one hlength'
      rw [computeRootLoop_odd] at h h'
      obtain ⟨hroots, hhash⟩ :=
        ih (by omega) (by simpa using hlength) (by simpa using hlength') h h'
      obtain ⟨ha, hhash⟩ := hc.combine hhash
      rw [hroots, ha]
      exact ⟨rfl, hhash⟩

theorem computeRootHash_inj (hc : c.Injective) (hn : n < 2 ^ 64) {x : H}
    (hlength : roots.length = n.bits.count true) (hlength' : roots'.length = n.bits.count true)
    (h : computeRootHash c roots n = some x) (h' : computeRootHash c roots' n = some x) :
    roots = roots' := by
  by_cases htwo : 2 ≤ roots.length
  · obtain ⟨t, q, rfl⟩ : ∃ t q, n = 2 ^ t * (2 * q + 1) := by
      refine exists_two_pow_mul (Nat.pos_of_ne_zero fun hzero => ?_)
      rw [hzero, Nat.zero_bits, List.count_nil] at hlength
      omega
    have hshift : (2 ^ t * (2 * q + 1)) >>>
        trailingZeros (BitVec.ofNat 64 (2 ^ t * (2 * q + 1))) = 2 * q + 1 := by
      rw [trailingZeros_eq (ofNat_toNat hn), Nat.shiftRight_eq_div_pow,
        Nat.mul_div_cancel_left _ (Nat.two_pow_pos t)]
    rw [computeRootHash_of_length htwo, hshift] at h
    rw [computeRootHash_of_length (by omega), hshift] at h'
    rw [count_bits_two_pow_mul] at hlength hlength'
    have hbound : 2 * q + 1 < 2 ^ 64 :=
      lt_of_le_of_lt (Nat.le_mul_of_pos_left _ (Nat.two_pow_pos t)) hn
    refine List.reverse_injective (computeRootLoop_inj hc hbound ?_ ?_ h h').1
    · rw [List.length_reverse, hlength]
    · rw [List.length_reverse, hlength']
  · -- no root or one
    rcases roots with _ | ⟨a, _ | ⟨b, rest⟩⟩
    · exact (List.eq_nil_of_length_eq_zero (hlength'.trans hlength.symm)).symm
    · obtain ⟨a', rfl⟩ := List.length_eq_one_iff.mp (hlength'.trans hlength.symm)
      rw [computeRootHash, Option.some.injEq] at h h'
      rw [h, h']
    · simp at htwo

theorem new_returns {a : InMemoryAccumulator H} :
    Returns (new c roots n) a ↔ roots.length = countOnes (BitVec.ofNat 64 n) ∧
      computeRootHash c roots n = some a.rootHash ∧ a.frozenSubtreeRoots = roots ∧
      a.numLeaves = n := by
  simp only [new, returns_bind, returns_ensure, returns_expect, returns_pure, exists_const]
  refine and_congr_right fun _ => ?_
  constructor
  · rintro ⟨rootHash, hroot, rfl⟩
    exact ⟨hroot, rfl, rfl⟩
  · rintro ⟨hroot, rfl, rfl⟩
    exact ⟨_, hroot, rfl⟩

theorem roots_of_new (hc : c.Injective) (hn : leaves.length < 2 ^ 64) {a : InMemoryAccumulator H}
    (h : Returns (new c roots leaves.length) a) (hroot : a.rootHash = root c leaves) :
    roots = frozenNodes c leaves 0 leaves.length := by
  obtain ⟨hlength, hcompute, -, -⟩ := new_returns.mp h
  rw [countOnes_eq, ofNat_toNat hn] at hlength
  rw [hroot] at hcompute
  exact computeRootHash_inj hc hn hlength length_frozenNodes hcompute (computeRootHash_eq hn)

/-! ## Merging backwards -/

theorem mergeLast_inj (hc : c.Injective) {merged : List H} (h : mergeLast c roots = some merged)
    (h' : mergeLast c roots' = some merged) : roots = roots' := by
  rcases roots with _ | ⟨a, _ | ⟨b, rest⟩⟩
  · cases h
  · cases h
  rcases roots' with _ | ⟨a', _ | ⟨b', rest'⟩⟩
  · cases h'
  · cases h'
  rw [mergeLast, Option.some.injEq] at h h'
  rw [← h] at h'
  obtain ⟨hhead, rfl⟩ := List.cons.inj h'
  obtain ⟨rfl, rfl⟩ := hc.combine hhead
  rfl

theorem length_of_mergeLast {merged : List H} (h : mergeLast c roots = some merged) :
    roots.length = merged.length + 1 := by
  rcases roots with _ | ⟨a, _ | ⟨b, rest⟩⟩
  · cases h
  · cases h
  rw [mergeLast, Option.some.injEq] at h
  rw [← h]
  rfl

theorem carry_inj (hc : c.Injective) {s : List ℕ} {merged : List H}
    (h : s.foldlM (fun roots _ => mergeLast c roots) roots = some merged)
    (h' : s.foldlM (fun roots _ => mergeLast c roots) roots' = some merged) : roots = roots' := by
  induction s generalizing roots roots' with
  | nil => exact Option.some.inj (h.trans h'.symm)
  | cons _ s ih =>
    rw [List.foldlM_cons, Option.bind_eq_bind, Option.bind_eq_some_iff] at h h'
    obtain ⟨x, hx, hrest⟩ := h
    obtain ⟨x', hx', hrest'⟩ := h'
    obtain rfl := ih hrest hrest'
    exact mergeLast_inj hc hx hx'

theorem length_of_carry {s : List ℕ} {merged : List H}
    (h : s.foldlM (fun roots _ => mergeLast c roots) roots = some merged) :
    roots.length = merged.length + s.length := by
  induction s generalizing roots with
  | nil =>
    rw [Option.some.inj h]
    rfl
  | cons _ s ih =>
    rw [List.foldlM_cons, Option.bind_eq_bind, Option.bind_eq_some_iff] at h
    obtain ⟨x, hx, hrest⟩ := h
    rw [length_of_mergeLast hx, ih hrest, List.length_cons]
    omega

theorem roots_of_appendSubtreesLoop (hc : c.Injective) {t q r : ℕ}
    (hlength : roots.length = (2 ^ t * (2 * q + 1)).bits.count true)
    (hr : 2 ^ t * (2 * q + 1) + r = leaves.length) {result : List H × ℕ}
    (h : Returns (appendSubtreesLoop c subtrees roots (2 ^ t * (2 * q + 1)) r t) result)
    (hresult : result.1.reverse = frozenNodes c leaves 0 leaves.length) :
    roots.reverse = frozenNodes c leaves 0 (2 ^ t * (2 * q + 1)) := by
  induction r using Nat.strong_induction_on generalizing t q roots subtrees with
  | _ r ih =>
    by_cases hle : 2 ^ t ≤ r
    · have hpos : 0 < 2 ^ t := Nat.two_pow_pos t
      obtain ⟨s, q', hs⟩ := exists_two_pow_mul (Nat.succ_pos (2 * q + 1))
      have hadd := two_pow_mul_odd_add t q s q' hs
      have hlt : (2 * q + 1) * 2 ^ t < leaves.length := by
        rw [mul_comm]
        omega
      -- the same carry leads from the nodes of the leaves to the next full trees
      have hcarry := carry_eq (c := c) hs hlt
      have hnext : frozenNodes c leaves t (2 * q + 1 + 1) =
          frozenNodes c leaves 0 (2 ^ (t + s) * (2 * q' + 1)) := by
        rw [show 2 * q + 1 + 1 = 2 ^ s * (2 * q' + 1) from hs, frozenNodes_two_pow_mul,
          frozenNodes_two_pow_mul, Nat.zero_add]
      have hhere : frozenNodes c leaves t (2 * q + 1) =
          frozenNodes c leaves 0 (2 ^ t * (2 * q + 1)) := by
        rw [frozenNodes_two_pow_mul, Nat.zero_add]
      rw [hnext, hhere] at hcarry
      rcases subtrees with _ | ⟨subtree, subtrees⟩
      · rw [appendSubtreesLoop.eq_def, Nat.one_shiftLeft, if_pos hle] at h
        exact absurd h returns_throw
      · obtain ⟨merged, hmerged, hrest⟩ := (appendSubtreesLoop_cons hs hle).mp h
        have hcount := length_of_carry hcarry
        have hcount' := length_of_carry hmerged
        rw [List.length_cons, List.length_reverse, List.length_reverse, length_frozenNodes,
          length_frozenNodes] at hcount
        rw [List.length_cons] at hcount'
        have hafter := ih (r - 2 ^ t) (by omega) (by omega) (by omega) hrest
        rw [← hafter, List.reverse_reverse] at hcarry
        obtain ⟨-, hroots⟩ := List.cons.inj (carry_inj hc hmerged hcarry)
        rw [hroots, List.reverse_reverse]
    · rw [appendSubtreesLoop.eq_def, Nat.one_shiftLeft, if_neg hle, returns_pure] at h
      rw [← h] at hresult
      rw [← hr, List.reverse_append, List.reverse_reverse, frozenNodes,
        frozen_add (Dvd.intro _ rfl) (Nat.not_le.mp hle), List.map_append] at hresult
      refine (List.append_inj hresult ?_).1
      rw [List.length_reverse, hlength, List.length_map, length_frozen]

theorem count_of_appendSubtreesLoop {r t : ℕ} {result : List H × ℕ}
    (h : Returns (appendSubtreesLoop c subtrees roots n r t) result) : result.2 = n + r := by
  induction subtrees generalizing roots n r t with
  | nil =>
    rw [appendSubtreesLoop.eq_def] at h
    split at h
    · exact absurd h returns_throw
    · rw [← returns_pure.mp h]
  | cons subtree subtrees ih =>
    rw [appendSubtreesLoop.eq_def] at h
    split at h
    · simp only [returns_bind] at h
      obtain ⟨_, -, hrest⟩ := h
      rw [ih hrest]
      omega
    · rw [← returns_pure.mp h]

theorem prefix_of_appendSubtrees (hc : c.Injective) {old new : List H} (hold : old ≠ [])
    (hle : old.length ≤ new.length) {a : InMemoryAccumulator H}
    (h : Returns ((summary c old).appendSubtrees c subtrees (new.length - old.length)) a)
    (hroot : a.rootHash = root c new) : old <+: new := by
  have hpos : 0 < old.length := List.length_pos_iff.mpr hold
  have hne : (summary c old).numLeaves ≠ 0 := hpos.ne'
  simp only [appendSubtrees, returns_bind, returns_assert, returns_ensure, if_neg hne] at h
  obtain ⟨-, hmax, -, hnew, result, hloop, h⟩ := h
  have hmax' : old.length ≤ 2 ^ 63 := hmax
  have hnew' : new.length - old.length ≤ 2 ^ 63 - old.length := hnew
  have hcount : result.2 = new.length := by
    rw [count_of_appendSubtreesLoop hloop]
    exact Nat.add_sub_cancel' hle
  rw [hcount] at h
  have hroots := roots_of_new hc (by omega) h hroot
  obtain ⟨t, q, hn⟩ := exists_two_pow_mul hpos
  have htrailing := trailingZeros_eq ((ofNat_toNat (by omega : old.length < 2 ^ 64)).trans hn)
  have hsum : old.length + (new.length - old.length) = new.length := Nat.add_sub_cancel' hle
  rw [summary, htrailing] at hloop
  dsimp only at hloop
  rw [hn] at hloop hsum
  have hstart := roots_of_appendSubtreesLoop hc
    (by rw [List.length_reverse, length_frozenNodes]) hsum hloop hroots
  rw [List.reverse_reverse, ← hn] at hstart
  exact prefix_of_frozenNodes_eq hc hle hstart

end InMemoryAccumulator

/-! ## Lists that start in the ledger -/

section Overlap
variable {H : Type} {c : Hashing H} {leaves : List H}

/-- The left siblings of a leaf are the full trees before it. -/
theorem reverse_sideSiblings {f l count : ℕ} (h : f / 2 ^ (l + count) = 0) :
    (sideSiblings c leaves f 0 l count).reverse = frozenNodes c leaves l (f / 2 ^ l) := by
  induction count generalizing l with
  | zero =>
    rw [show f / 2 ^ l = 0 from h, frozenNodes_zero]
    rfl
  | succ count ih =>
    have hrest := ih (l := l + 1) (by rwa [show l + 1 + count = l + (count + 1) by omega])
    rw [sideSiblings_succ, List.reverse_append, hrest]
    obtain ⟨q, hq | hq⟩ := (f / 2 ^ l).even_or_odd'
    · rw [hq, other_two_mul, if_neg (by omega), div_two_pow_succ_of_left hq, frozenNodes_two_mul,
        List.reverse_nil, List.append_nil]
    · rw [hq, other_two_mul_add_one, if_pos (by omega), div_two_pow_succ_of_right hq,
        frozenNodes_two_mul_add_one, List.reverse_singleton]

variable [DecidableEq H]

theorem verifyOverlap_returns {f count : ℕ} (hf : f + count ≤ leaves.length)
    (hlt : f < leaves.length) (hmax : leaves.length ≤ 2 ^ 63) {rootHash : H} :
    Returns (verifyOverlap c (sideSiblings c leaves f 0 0 (Nat.clog 2 leaves.length)) f
      ((leaves.drop f).take count) rootHash) () ↔ root c (leaves.take (f + count)) = rootHash := by
  have hsplit : leaves.take (f + count) = leaves.take f ++ (leaves.drop f).take count :=
    List.take_add
  have hlength : (leaves.take f).length = f := List.length_take_of_le hlt.le
  have hroots : (sideSiblings c leaves f 0 0 (Nat.clog 2 leaves.length)).reverse =
      frozenNodes c (leaves.take f) 0 (leaves.take f).length := by
    rw [reverse_sideSiblings (by rw [Nat.zero_add]; exact div_root hlt), pow_zero, Nat.div_one,
      hlength]
    conv_lhs => rw [← List.take_append_drop f leaves]
    rw [frozenNodes_append (by rw [hlength, pow_zero, mul_one])]
  have hnew := InMemoryAccumulator.new_summary (c := c) (by rw [hlength]; omega :
    (leaves.take f).length < 2 ^ 64)
  rw [← hroots, hlength] at hnew
  have happend := InMemoryAccumulator.append_summary (c := c) (by
    rw [← hsplit, List.length_take]
    omega : (leaves.take f ++ (leaves.drop f).take count).length < 2 ^ 64)
  simp only [verifyOverlap, returns_bind, returns_mapError, returns_expect, returns_ensure]
  constructor
  · rintro ⟨before, hbefore, appended, happended, hroot⟩
    obtain rfl := hbefore.eq hnew
    rw [happend, Option.some.injEq] at happended
    rw [← hroot, ← happended, hsplit]
    rfl
  · intro hroot
    refine ⟨_, hnew, _, happend, ?_⟩
    rw [← hroot, hsplit]
    rfl

/-- Both ways to check an extension only accept a ledger that extends the old one. -/
theorem prefix_of_extension {T : Type} (hashOf : T → H) (hc : c.Injective) (old new : List H)
    (hold : old ≠ []) :
    (∀ subtrees ledgerInfo extended, ledgerInfo.version + 1 = new.length →
      ledgerInfo.transactionAccumulatorHash = root c new →
      Returns (TransactionAccumulatorSummary.tryExtendWithProof c
        ⟨InMemoryAccumulator.summary c old⟩ subtrees ledgerInfo) extended → old <+: new) ∧
    ∀ reader, Holds c reader new → new.length ≤ maxAccumulatorLeaves →
      ∀ (infos : List T) (f : ℕ) lefts rights overlap,
        infos.map hashOf = (new.drop f).take infos.length →
        Returns (getRangeProof c reader new.length (some f) infos.length) (lefts, rights) →
        Returns (TransactionInfoListWithProof.verifyExtendsLedger c hashOf
          ⟨⟨lefts, rights⟩, infos⟩ old.length (root c old) (some f)) overlap →
        old.length ≤ f + infos.length → old <+: new ∧ f + overlap = old.length := by
  have hpos : 0 < old.length := List.length_pos_iff.mpr hold
  refine ⟨fun subtrees ledgerInfo extended hversion hroot h => ?_,
    fun reader hreader hmax infos f lefts rights overlap hinfos hproof h hend => ?_⟩
  · have hold' : (InMemoryAccumulator.summary c old).numLeaves ≠ 0 := hpos.ne'
    have hown : TransactionAccumulatorSummary.version ⟨InMemoryAccumulator.summary c old⟩ =
        old.length - 1 := by
      rw [TransactionAccumulatorSummary.version, InMemoryAccumulator.version, if_neg hold']
      rfl
    simp only [TransactionAccumulatorSummary.tryExtendWithProof, returns_bind, returns_ensure,
      returns_mapError, TransactionAccumulatorSummary.verifyConsistency, hown] at h
    obtain ⟨-, hnewer, a, happend, -, ⟨-, -, hhash⟩, -⟩ := h
    rw [show ledgerInfo.version - (old.length - 1) = new.length - old.length by omega] at happend
    exact InMemoryAccumulator.prefix_of_appendSubtrees hc hold (by omega) happend
      (hhash.symm.trans hroot)
  · have hmax' : new.length ≤ 2 ^ 63 := hmax
    obtain ⟨hinfos', hle, hword⟩ := lt_of_getRangeProof hmax' hproof
    have hstored := getRangeProof_eq hreader hmax' (by omega : f ≤ f + infos.length - 1)
      (by omega) (by omega)
    rw [show f + infos.length - 1 + 1 - f = infos.length by omega] at hstored
    obtain ⟨rfl, -⟩ := Prod.mk.inj (hproof.eq hstored)
    simp only [TransactionInfoListWithProof.verifyExtendsLedger, returns_bind, returns_ensure] at h
    obtain ⟨-, hf, h⟩ := h
    rw [if_neg (by omega)] at h
    simp only [returns_bind, returns_pure] at h
    obtain ⟨⟨⟩, hoverlap, rfl⟩ := h
    rw [List.map_take, hinfos, List.take_take, Nat.min_eq_left (by omega),
      verifyOverlap_returns (by omega) (by omega) hmax', Nat.add_sub_cancel' hf] at hoverlap
    refine ⟨?_, Nat.add_sub_cancel' hf⟩
    have hsame := eq_of_root_eq hc (List.length_take_of_le (by omega)) hoverlap
    rw [← hsame]
    exact List.take_prefix _ _

theorem prefix_of_extension_two :
    Returns (TransactionAccumulatorSummary.tryExtendWithProof (Term.hashing ℕ)
        ⟨.summary (Term.hashing ℕ) [.leaf 0]⟩ [.leaf 1] ⟨1, .combine (.leaf 0) (.leaf 1)⟩)
      ⟨.summary (Term.hashing ℕ) [.leaf 0, .leaf 1]⟩ ∧
    [Term.leaf 0] <+: [Term.leaf 0, .leaf 1] := by
  have happend := @InMemoryAccumulator.appendSubtrees_summary (Term ℕ) (Term.hashing ℕ) [.leaf 0]
    [.leaf 1] (by decide)
  have h : Returns (TransactionAccumulatorSummary.tryExtendWithProof (Term.hashing ℕ)
      ⟨.summary (Term.hashing ℕ) [.leaf 0]⟩ [.leaf 1] ⟨1, .combine (.leaf 0) (.leaf 1)⟩)
      ⟨.summary (Term.hashing ℕ) [.leaf 0, .leaf 1]⟩ := by
    have hgrow : grow 1 1 = [(0, 1)] := by
      have hlevel : growLevel 1 1 = 0 := growLevel_odd (t := 0) (q := 0) le_rfl
      rw [grow_eq hlevel one_ne_zero, pow_zero, Nat.sub_self, grow_zero, Nat.div_one]
    rw [List.length_singleton, List.length_singleton, hgrow] at happend
    simp only [TransactionAccumulatorSummary.tryExtendWithProof, returns_bind, returns_ensure,
      returns_mapError, TransactionAccumulatorSummary.verifyConsistency, returns_pure]
    exact ⟨(), by decide, _, happend, (), ⟨(), rfl, rfl⟩, rfl⟩
  exact ⟨h, (prefix_of_extension Term.leaf Term.separates.toInjective _ _ (by decide)).1 _ _ _
    rfl rfl h⟩

end Overlap

end Anthemius.Accumulators

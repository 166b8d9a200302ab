import Anthemius.PrologueCaching
import Anthemius.Serializability

/-!
# Signatures and the result of a block

Preprocessing a user transaction does not look at its signature, and what the signature tasks of
the executor find is not used. So no output of a block is the one for an invalid signature,
whatever the mode, the number of workers and their interleaving.
-/
namespace Anthemius
open CheckedLoops

variable {K T W S X Ev : Type}

/-- The flags of the cells: set for the first transaction with a key. -/
def prologueFlags (checkSet : List (List UInt8)) : List (List UInt8) → List Bool
  | [] => []
  | key :: keys => (!checkSet.contains key) :: prologueFlags (key :: checkSet) keys

namespace AptosVM
variable (vm : AptosVM K T W S X Ev)

/-- What a signature task computes. -/
def verifyTransaction (checkSig : T → Bool) : PreprocessedTransaction T W → Bool
  | .userTransaction txn => checkSig txn
  | _ => true

variable {vm}

theorem validate_code {txn : T} {session session' : S} {allowTooNew : Bool} {err : X}
    (h : (vm.validateSignatureCheckedTransaction txn session allowTooNew).Yields
      (session', .error err)) : vm.statusCode err ≠ invalidSignature := by
  unfold validateSignatureCheckedTransaction at h
  split at h
  · rename_i err' hformat
    cases h
    exact vm.format_code txn err hformat
  · obtain ⟨⟨session'', verdict⟩, hrun, heq⟩ := Program.Yields.of_map h
    cases verdict with
    | error err' =>
      dsimp only at heq
      split at heq
      · cases heq
        exact vm.prologue_code txn session _ err hrun
      · cases heq
    | ok => cases heq

theorem executeChecked_status {txn : T} {skip : Bool} {result : X × VmOutput K Ev}
    (h : (vm.executeChecked txn skip).Yields result) :
    result.2.payload.status ≠ .discard invalidSignature := by
  obtain ⟨⟨session, verdict⟩, hcheck, h⟩ := Program.Yields.of_bind h
  cases verdict with
  | error err =>
    cases h
    intro hstatus
    exact validate_code hcheck (TransactionStatus.discard.inj hstatus)
  | ok => exact vm.payload_status _ _ _ _ h

theorem executeUserTransaction_status {txn : T} {skip : Bool} {prologue : Bool × Bool}
    {result : (X × VmOutput K Ev) × Bool}
    (h : (vm.executeUserTransaction txn skip prologue).Yields result) :
    result.1.2.payload.status ≠ .discard invalidSignature := by
  unfold executeUserTransaction at h
  split at h
  · obtain ⟨outcome, hbody, rfl⟩ := Program.Yields.of_map h
    exact vm.payload_status _ _ _ _ hbody
  · split at h
    · obtain ⟨outcome, hchecked, rfl⟩ := Program.Yields.of_map h
      exact executeChecked_status hchecked
    · split at h
      · obtain ⟨outcome, hchecked, rfl⟩ := Program.Yields.of_map h
        exact executeChecked_status hchecked
      · obtain ⟨outcome, hbody, rfl⟩ := Program.Yields.of_map h
        exact vm.payload_status _ _ _ _ hbody

theorem executeSingleTransaction_status {sender : T → List UInt8} {txn : Transaction T W}
    {skip : Bool} {prologue : Bool × Bool} {outcome : X × VmOutput K Ev} {cell : Bool}
    (h : (vm.executeSingleTransaction (preprocessTransaction sender txn).1 skip prologue).Yields
      (.ok outcome, cell)) : outcome.2.payload.status ≠ .discard invalidSignature := by
  cases txn with
  | userTransaction txn =>
    obtain ⟨result, huser, heq⟩ := Program.Yields.of_map h
    cases heq
    exact executeUserTransaction_status huser
  | genesisTransaction writeSet =>
    obtain ⟨result, hway, heq⟩ := Program.Yields.of_map h
    cases heq
    exact vm.waypoint_status _ _ hway
  | blockMetadata metadata =>
    obtain ⟨result, hblock, heq⟩ := Program.Yields.of_map h
    cases heq
    exact vm.blockPrologue_status _ _ hblock
  | stateCheckpoint id =>
    cases h
    exact fun h => by cases h

theorem executeTransaction_status {sender : T → List UInt8} {txn : Transaction T W}
    {prologue : Bool × Bool} {status : TxnStatus K (VmPayload Ev) X} {o : VmOutput K Ev}
    (h : (vm.executeTransaction (preprocessTransaction sender txn).1 prologue).Yields status)
    (ho : status.output? = some o) : o.payload.status ≠ .discard invalidSignature := by
  obtain ⟨⟨verdict, cell⟩, hsingle, rfl⟩ := Program.Yields.of_map h
  cases verdict with
  | error err => cases ho
  | ok outcome =>
    obtain rfl : outcome.2 = o := by
      dsimp only at ho
      split at ho
      · exact Option.some.inj ho
      · exact Option.some.inj ho
    exact executeSingleTransaction_status hsingle

end AptosVM

/-! ## Recorded outputs -/

namespace Speculation
variable {P E : Type} {m : ℕ} [DecidableEq K] {job : Job K P E} {d : Discipline} {w : Fin m}
  {s s' : Speculation K P E m}

/-- Whatever is recorded as the output of a transaction comes from its program. -/
def OutputsYield (job : Job K P E) (s : Speculation K P E m) : Prop :=
  ∀ i < job.numTxns, ∀ output, s.io.outputs i = some output →
    ∃ status, (job.program i).Yields status ∧ output = status.mapError .userError

theorem outputsYield_step (hi : StatusInvariant job s) {outcomes : Outcomes K P E}
    (hm : MirrorInvariant job outcomes s) (h : OutputsYield job s) (hs : Step job d w s s') :
    OutputsYield job s' := by
  cases hs with
  | @compute v phase mv io phase' hr hc =>
    obtain ⟨-, ht⟩ := mirrored_executing hi.owns (hm.mirrored v.1) hr
    intro i hn output hout
    cases hc with
    | @recordOutput status =>
      obtain ⟨reads, -, hx⟩ := ht
      by_cases hiv : i = v.1
      · subst hiv
        have hrec : some (status.mapError .userError) = some output := by
          simpa [turn] using hout
        exact ⟨status, Replays.yields hx (.finished status), (Option.some.inj hrec).symm⟩
      · exact h i hn output (by simpa [turn, hiv] using hout)
    | _ => exact h i hn output hout
  | _ => exact h

theorem Reachable.outputsYield (hr : Reachable job d s) : OutputsYield job s :=
  InterleavedRuns.invariant_of_step (I := OutputsYield job) (fun _ _ _ h => by cases h)
    (fun _ _ ht h ⟨_, hs⟩ => (Reachable.mirrorInvariant ht).elim fun _ hm =>
      outputsYield_step (Reachable.statusInvariant ht) hm h hs) hr

end Speculation

section Payloads
variable {P E : Type} {m : ℕ} [DecidableEq K] [Inhabited P] {out : MergedOutput K P}
  {outs : List (MergedOutput K P)}

/-- A payload is that of a skipped transaction, or a transaction of the block can produce it. -/
def PayloadFrom (n : ℕ) (program : TxnIndex → Program K (TxnStatus K P E)) (payload : P) : Prop :=
  payload = default ∨ ∃ i < n, ∃ status o,
    (program i).Yields status ∧ status.output? = some o ∧ payload = o.payload

theorem State.Reachable.payloadFrom {job : Job K P E} {s : State K P E m}
    (hs : State.Reachable job s) (h : s.executeTransactionsParallel job = some (.ok outs))
    (hout : out ∈ outs) : PayloadFrom job.numTxns job.program out.payload := by
  obtain ⟨outputs, houtputs, h⟩ := Option.bind_eq_some_iff.mp h
  dsimp only at h
  split at h
  · cases h
  · rename_i results hresults
    obtain ⟨_, -, h⟩ := Option.bind_eq_some_iff.mp h
    obtain ⟨merged, hmerged, heq⟩ := Option.map_eq_some_iff.mp h
    cases heq
    obtain ⟨x, hx, hmerge⟩ := mem_of_mapM hmerged hout
    rw [x.1.payload_outputWithDeltaWrites hmerge]
    rcases ResultAssembly.mem_of_executeTransactionsParallel hresults hx with
      hx | ⟨recorded, hrecorded, ho⟩
    · exact .inl (by rw [hx]; rfl)
    · obtain ⟨i, hi, hio⟩ := mem_of_mapM houtputs hrecorded
      have hi := List.mem_range.mp hi
      obtain ⟨status, hyields, rfl⟩ :=
        (State.Reachable.speculation hs).outputsYield i hi recorded hio
      exact .inr ⟨i, hi, status, x.1, hyields, by simpa using ho, rfl⟩

theorem Sequential.payloadFrom {base : K → Option LittleEndianBytes.Bytes}
    {program : TxnIndex → Program K (TxnStatus K P E)} {n : ℕ}
    (h : executeTransactionsSequential base program n = some (.ok outs)) (hout : out ∈ outs) :
    PayloadFrom n program out.payload := by
  obtain ⟨result, hloop, hresult⟩ := Option.map_eq_some_iff.mp h
  cases result with
  | error err => cases hresult
  | ok ret =>
    cases hresult
    rcases ResultAssembly.mem_resizeWith hout with rfl | hret
    · exact .inl rfl
    · rcases Sequential.mem_of_loop hloop hret with hnil | ⟨i, hi, hyields⟩
      · cases hnil
      · exact .inr ⟨i, List.mem_range.mp hi, hyields⟩

end Payloads

/-! ## Executions of a block -/

namespace AptosVM

variable (vm : AptosVM K T W S X Ev) (sender : T → List UInt8) (block : List (Transaction T W))

/-- The transactions as programs, with the given cells. -/
def blockProgram (prologue : TxnIndex → Bool × Bool) (i : TxnIndex) :
    Program K (TxnStatus K (VmPayload Ev) X) :=
  match block[i]? with
  | some txn => vm.executeTransaction (preprocessTransaction sender txn).1 (prologue i)
  | none => .finished (.success .skipOutput)

/-- The parallel execution of a block. A program may use the cell of its transaction in any way
that the machine does for some content of it. -/
structure BlockJob extends Job K (VmPayload Ev) X where
  numTxns_eq : numTxns = block.length
  program_yields : ∀ i < numTxns, ∀ status, (program i).Yields status →
    ∃ prologue, (vm.blockProgram sender block prologue i).Yields status
  prologue_eq : ∀ i txn, block[i]? = some txn →
    prologue i = vm.executeSingleTransactionPrologue (preprocessTransaction sender txn).1
  prologueMap_eq : ∀ i, prologueMap i =
    (prologueFlags [] (block.map fun txn => (preprocessTransaction sender txn).2)).getD i false

/-- The job of a block whose cells keep their content. -/
def blockJob (prologue : TxnIndex → Bool × Bool) (base : K → Option LittleEndianBytes.Bytes)
    (mode : ExecutionMode) (dependencies : List (List TxnIndex)) (gasEstimates : List ℕ)
    (plan : Plan) (hlt : block.length < 2 ^ 32)
    (hplan : Plan.new block.length dependencies gasEstimates = some plan) :
    vm.BlockJob sender block where
  numTxns := block.length
  numTxns_lt := hlt
  program := vm.blockProgram sender block prologue
  prologue i := (block[i]?.map fun txn =>
    vm.executeSingleTransactionPrologue (preprocessTransaction sender txn).1).getD (.finished false)
  prologueMap i :=
    (prologueFlags [] (block.map fun txn => (preprocessTransaction sender txn).2)).getD i false
  base := base
  mode := mode
  dependencies := dependencies
  gasEstimates := gasEstimates
  plan := plan
  plan_new := hplan
  numTxns_eq := rfl
  program_yields _ _ _ h := ⟨prologue, h⟩
  prologue_eq i txn h := by
    rw [h]
    rfl
  prologueMap_eq _ := rfl

end AptosVM

/-- Among the writers of a key, `i` is the last one before `j`. -/
def LastWriter (writes : TxnIndex → Prop) (j i : TxnIndex) : Prop :=
  writes i ∧ i < j ∧ ∀ k, i < k → k < j → ¬writes k

/-- In the final state transaction `j` has read a key that `i` was the last to write. -/
def State.Observes {P E : Type} {m : ℕ} (s : State K P E m) (j i : TxnIndex) : Prop :=
  ∃ reads, s.io.inputs j = some reads ∧ ∃ r ∈ reads, LastWriter
    (fun k => ∃ flag inc data, s.mv.entry r.accessPath k = some ⟨flag, .write inc data⟩) j i

/-- In sequential execution transaction `j` reads a key that `i` was the last to write. -/
def Sequential.Observes {P E : Type} [DecidableEq K] (base : K → Option LittleEndianBytes.Bytes)
    (program : TxnIndex → Program K (TxnStatus K P E)) (outs : List (MergedOutput K P))
    (j i : TxnIndex) : Prop :=
  ∃ map, Sequential.dataMap base program j = some map ∧
    ∃ key ∈ (program j).readKeys (Sequential.btreeView base map),
      LastWriter (fun k => ∃ out, outs[k]? = some out ∧ (out.writeSet key).isSome) j i

namespace AptosVM
variable [DecidableEq K] (vm : AptosVM K T W S X Ev) (sender : T → List UInt8)
  (base : K → Option LittleEndianBytes.Bytes) (block : List (Transaction T W))

/-- The outputs that the execution of a block returns, with what its transactions observe:
those of a parallel run, and those of sequential execution, which is also the fallback. -/
inductive Returns : List (MergedOutput K (VmPayload Ev)) → (TxnIndex → TxnIndex → Prop) → Prop
  | parallel {m : ℕ} {s : State K (VmPayload Ev) X m} {outs : List (MergedOutput K (VmPayload Ev))}
      (job : vm.BlockJob sender block) (hbase : job.base = base) (hlevel : 1 < m)
      (hs : State.Reachable job.toJob s) (hexit : ∀ w, ∃ done, (s.workers w).pc = .exited done)
      (h : s.executeTransactionsParallel job.toJob = some (.ok outs)) : Returns outs s.Observes
  | sequential {outs : List (MergedOutput K (VmPayload Ev))}
      (h : Sequential.executeTransactionsSequential base
        (vm.blockProgram sender block fun _ => (false, true)) block.length = some (.ok outs)) :
      Returns outs
        (Sequential.Observes base (vm.blockProgram sender block fun _ => (false, true)) outs)

/-- The signature check of transaction `i` fails. -/
def Unsigned (checkSig : T → Bool) (i : TxnIndex) : Prop :=
  ∃ txn, block[i]? = some txn ∧
    verifyTransaction checkSig (preprocessTransaction sender txn).1 = false

/-- Transactions whose signature check fails are discarded for it and have no effect. -/
def DiscardsUnsigned (checkSig : T → Bool) (outs : List (MergedOutput K (VmPayload Ev)))
    (observes : TxnIndex → TxnIndex → Prop) : Prop :=
  ∀ i, Unsigned sender block checkSig i →
    (∃ out, outs[i]? = some out ∧ out.payload.status = .discard invalidSignature ∧
      ∀ key, out.writeSet key = none) ∧ ∀ j, ¬observes j i

variable {vm sender base block}

omit [DecidableEq K] in
theorem blockProgram_status {prologue : TxnIndex → Bool × Bool} {i : TxnIndex}
    {status : TxnStatus K (VmPayload Ev) X} {o : VmOutput K Ev}
    (h : (vm.blockProgram sender block prologue i).Yields status) (ho : status.output? = some o) :
    o.payload.status ≠ .discard invalidSignature := by
  unfold blockProgram at h
  split at h
  · exact executeTransaction_status h ho
  · cases h
    cases ho
    exact fun h => by cases h

theorem Returns.status {outs : List (MergedOutput K (VmPayload Ev))}
    {observes : TxnIndex → TxnIndex → Prop} (h : vm.Returns sender base block outs observes)
    {out : MergedOutput K (VmPayload Ev)} (hout : out ∈ outs) :
    out.payload.status ≠ .discard invalidSignature := by
  have hskip : (default : VmPayload Ev).status ≠ .discard invalidSignature := fun h => by cases h
  cases h with
  | parallel job hbase hlevel hs hexit h =>
    rcases hs.payloadFrom h hout with heq | ⟨i, hi, status, o, hyields, ho, heq⟩
    · rw [heq]
      exact hskip
    · obtain ⟨prologue, hyields⟩ := job.program_yields i hi status hyields
      rw [heq]
      exact blockProgram_status hyields ho
  | sequential h =>
    rcases Sequential.payloadFrom h hout with heq | ⟨i, -, status, o, hyields, ho, heq⟩
    · rw [heq]
      exact hskip
    · rw [heq]
      exact blockProgram_status hyields ho

/-- Transactions with invalid signatures are discarded for that just when there are none: for
every block, mode, number of workers and interleaving. -/
theorem discardsUnsigned_iff {checkSig : T → Bool} {outs : List (MergedOutput K (VmPayload Ev))}
    {observes : TxnIndex → TxnIndex → Prop} (h : vm.Returns sender base block outs observes) :
    DiscardsUnsigned sender block checkSig outs observes ↔
      ∀ i, ¬Unsigned sender block checkSig i := by
  constructor
  · intro hdiscards i hi
    obtain ⟨⟨out, hout, hstatus, -⟩, -⟩ := hdiscards i hi
    exact h.status (List.mem_of_getElem? hout) hstatus
  · intro hsigned i hi
    exact absurd hi (hsigned i)

end AptosVM

/-- A block of one transaction, with tasks that check its signature. -/
def forgedJob : accountVm.BlockJob (fun _ => [1]) [.userTransaction 7] :=
  accountVm.blockJob (fun _ => [1]) [.userTransaction 7] (fun _ => (true, false))
    (fun _ => some [1]) .pythiaSig [[]] [3] _ (by decide) rfl

open InterleavedRuns in
/-- The signature of transaction 7 is forged. In sequential execution its output is kept, and the
transaction behind it reads what it wrote. Two workers keep it as well, although one of them
has checked the signature. -/
theorem kept_accountVm :
    (∃ outs observes, accountVm.Returns (fun _ => [1]) (fun _ => some [1])
        [.userTransaction 7, .userTransaction 8] outs observes ∧
      AptosVM.Unsigned (W := Unit) (fun _ => [1]) [.userTransaction 7, .userTransaction 8]
        (fun txn => txn != 7) 0 ∧
      (∃ out, outs[0]? = some out ∧ out.payload.status = .keep .success ∧
        out.writeSet 1 = some (.modification [9])) ∧
      observes 1 0) ∧
    ∃ (s : State ℕ (VmPayload Unit) StatusCode 2) (outs : _), 0 ∈ s.verified ∧
      accountVm.Returns (fun _ => [1]) (fun _ => some [1]) [.userTransaction 7] outs s.Observes ∧
      ∃ out, outs[0]? = some out ∧ out.payload.status = .keep .success ∧
        out.writeSet 1 = some (.modification [9]) := by
  constructor
  · refine ⟨_, _, .sequential rfl, ⟨_, rfl, rfl⟩, ⟨_, rfl, rfl, rfl⟩, _, rfl, 1, ?_, ?_⟩
    · decide
    · exact ⟨⟨_, rfl, rfl⟩, Nat.zero_lt_one, fun k h h' => absurd h' (Nat.not_lt.mpr h)⟩
  · obtain ⟨s, hs, h⟩ := Option.bind_eq_some_iff.mp (show
      (follow (State.step forgedJob.toJob) (List.replicate 62 (0, 0) ++ List.replicate 8 (1, 0))
        (State.new forgedJob.toJob : State ℕ (VmPayload Unit) StatusCode 2)).bind (fun s =>
          (s.executeTransactionsParallel forgedJob.toJob).bind fun result =>
            result.toOption.bind fun outs => outs[0]?.map fun out => decide (0 ∈ s.verified ∧
              (∀ w, (s.workers w).pc.isDone = true) ∧ out.payload.status = .keep .success ∧
              out.writeSet 1 = some (.modification [9]))) = some true by decide +kernel)
    obtain ⟨result, hresult, h⟩ := Option.bind_eq_some_iff.mp h
    obtain ⟨outs, houts, h⟩ := Option.bind_eq_some_iff.mp h
    obtain ⟨out, hout, h⟩ := Option.map_eq_some_iff.mp h
    obtain ⟨hverified, hdone, hkept⟩ := of_decide_eq_true h
    have hreach : State.Reachable forgedJob.toJob s :=
      Reachable.start.follow _ (guarded_anyStep _ _) hs
    cases result with
    | error err => cases houts
    | ok outs' =>
      cases houts
      exact ⟨s, outs, hverified, .parallel forgedJob rfl (by decide) hreach
        (fun w => ⟨true, Pc.isDone_iff.mp (hdone w)⟩) hresult, out, hout, hkept⟩

/-- Without the forged one, there is nothing to discard. -/
theorem discardsUnsigned_accountVm : ∃ outs observes,
    accountVm.Returns (fun _ => [1]) (fun _ => some [1]) [.userTransaction 8] outs observes ∧
    AptosVM.DiscardsUnsigned (W := Unit) (fun _ => [1]) [.userTransaction 8] (fun txn => txn != 7)
      outs observes := by
  refine ⟨_, _, .sequential rfl, (AptosVM.discardsUnsigned_iff (.sequential rfl)).mpr ?_⟩
  rintro i ⟨txn, htxn, hsig⟩
  cases i with
  | zero =>
    cases htxn
    cases hsig
  | succ i => cases htxn

end Anthemius

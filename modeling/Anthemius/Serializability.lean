import Anthemius.BlockCompletion
import Anthemius.DeltaMaterialisation
import Anthemius.ValidatedReads
import Anthemius.CommitSoundness

/-!
# Serializability

When all workers have left with `Done` and every claim of a validation was atomic, each
recorded output is what the transaction does on the state that its predecessors leave, one
after the other. The recorded reads agree with the final map, the final map answers them with
the sequential values, and a program is determined by the answers it gets.
-/
namespace Anthemius
open LittleEndianBytes UpdateLists

variable {K P E : Type}

/-! ## Aggregators -/

theorem Replays.yields {R : Type} {seen : ReadDescriptor K → StateValue → Prop} {p q : Program K R}
    {reads : List (ReadDescriptor K)} (h : Replays seen p reads q) {result : R}
    (hq : q.Yields result) : p.Yields result := by
  induction h with
  | start => exact hq
  | read _ _ ih => exact ih (.readKey _ hq)

/-- Some keys hold aggregators, each with its own limit: only they have deltas, all with that
limit, and all their values are 128-bit words. -/
structure Job.Aggregators (job : Job K P E) (limit : K → Option ℕ) : Prop where
  base : ∀ key l, limit key = some l → ∃ v, decodeValue (job.base key) = some v
  writes : ∀ i < job.numTxns, ∀ status o, (job.program i).Yields status →
    status.output? = some o → ∀ key data l, (key, data) ∈ o.getWrites → limit key = some l →
      ∃ v, decodeValue data.extractRawBytes = some v
  deltas : ∀ i < job.numTxns, ∀ status o, (job.program i).Yields status →
    status.output? = some o → ∀ key d, (key, d) ∈ o.getDeltas → limit key = some d.limit

variable {m : ℕ} [DecidableEq K]

omit [DecidableEq K] in
theorem Job.delta_of_updates {inc : Incarnation} {status : TxnStatus K P E} {key : K} {d : DeltaOp}
    (h : (key, .delta d) ∈ Job.updates inc status) :
    ∃ o, status.output? = some o ∧ (key, d) ∈ o.getDeltas := by
  unfold Job.updates at h
  split at h
  · cases h
  · rename_i o ho
    exact ⟨o, ho, by simpa using h⟩

omit [DecidableEq K] in
theorem Job.write_mem_of_updates {inc k : Incarnation} {status : TxnStatus K P E} {key : K}
    {data : WriteOp} (h : (key, .write k data) ∈ Job.updates inc status) :
    ∃ o, status.output? = some o ∧ (key, data) ∈ o.getWrites := by
  unfold Job.updates at h
  split at h
  · cases h
  · rename_i o ho
    simp only [List.mem_append, List.mem_map, Prod.mk.injEq, EntryCell.write.injEq, reduceCtorEq,
      and_false, exists_false, or_false] at h
    obtain ⟨x, hx, hkey, -, hdata⟩ := h
    exact ⟨o, ho, hkey ▸ hdata ▸ hx⟩

namespace Speculation
variable {job : Job K P E} {d : Discipline} {w : Fin m} {s s' : Speculation K P E m}
  {limit : K → Option ℕ}

/-- The list of delta keys is complete and holds aggregators only. -/
structure DeltaKeyInvariant (limit : K → Option ℕ) (s : Speculation K P E m) : Prop where
  indexed : s.mv.Indexed
  aggregator : ∀ key ∈ s.mv.deltaKeys, ∃ l, limit key = some l

theorem deltaKeyInvariant_compute (hagg : job.Aggregators limit) (hi : StatusInvariant job s)
    {outcomes : Outcomes K P E} (hm : MirrorInvariant job outcomes s)
    (h : DeltaKeyInvariant limit s)
    {v : Version} {phase phase' : ExecutePhase K P E} {mv : MVHashMap K}
    {io : TxnLastInputOutput K P E} (hr : s.role w = .executing v phase)
    (hc : Compute job v s.mv s.io phase mv io phase') :
    mv.Indexed ∧ ∀ key ∈ mv.deltaKeys, ∃ l, limit key = some l := by
  obtain ⟨hd, ht⟩ := mirrored_executing hi.owns (hm.mirrored v.1) hr
  have hv : v.1 < job.numTxns := by simpa [hr, Role.Within] using hi.index.within w
  cases hc with
  | @apply status reads u us prev _ happ =>
    obtain ⟨key, cell⟩ := u
    cases cell with
    | write inc data =>
      rw [(MVHashMap.addWrite_some happ).1]
      exact ⟨h.indexed.insertEntry (fun d hd => by cases hd), h.aggregator⟩
    | delta op =>
      cases happ
      refine ⟨h.indexed.addDelta op, fun k hk => ?_⟩
      have hk' : k = key ∨ k ∈ s.mv.deltaKeys := by
        unfold MVHashMap.addDelta at hk
        dsimp only at hk
        split at hk
        · exact .inr hk
        · simpa [or_comm] using hk
      rcases hk' with rfl | hk'
      · obtain ⟨-, -, done, hupd, -⟩ := hd
        have hu : (k, EntryCell.delta op) ∈ Job.updates v.2 status := by
          rw [hupd]
          simp
        obtain ⟨o, ho, hmem⟩ := Job.delta_of_updates hu
        exact ⟨_, hagg.deltas v.1 hv status o (Replays.yields ht (.finished status)) ho k op hmem⟩
      · exact h.aggregator k hk'
  | @remove status reads prev choice key _ hk hdel =>
    refine ⟨h.indexed.delete hdel, ?_⟩
    obtain ⟨val, -, rfl⟩ := Option.map_eq_some_iff.mp hdel
    exact h.aggregator
  | _ => exact ⟨h.indexed, h.aggregator⟩

theorem deltaKeyInvariant_step (hagg : job.Aggregators limit) (hi : StatusInvariant job s)
    {outcomes : Outcomes K P E} (hm : MirrorInvariant job outcomes s)
    (h : DeltaKeyInvariant limit s)
    (hs : Step job d w s s') : DeltaKeyInvariant limit s' := by
  cases hs with
  | compute hr hc =>
    obtain ⟨hx, ha⟩ := deltaKeyInvariant_compute hagg hi hm h hr hc
    exact ⟨hx, ha⟩
  | mark hr hk hmark =>
    refine ⟨h.indexed.markEstimate hmark, ?_⟩
    obtain ⟨e, -, rfl⟩ := MVHashMap.markEstimate_some hmark
    exact h.aggregator
  | _ => exact ⟨h.indexed, h.aggregator⟩

theorem Reachable.deltaKeyInvariant (hagg : job.Aggregators limit) (hr : Reachable job d s) :
    DeltaKeyInvariant limit s :=
  InterleavedRuns.invariant_of_step (I := DeltaKeyInvariant limit)
    ⟨MVHashMap.indexed_new, fun _ hk => absurd hk List.not_mem_nil⟩
    (fun _ _ ht h ⟨_, hs⟩ => (Reachable.mirrorInvariant ht).elim fun _ hm =>
      deltaKeyInvariant_step hagg (Reachable.statusInvariant ht) hm h hs) hr

end Speculation

/-! ## The sequential values in the final map -/

theorem lastUpdate_updates (inc : Incarnation) (o : TransactionOutput K P) (key : K) :
    lastUpdate (Job.updates inc (.success o : TxnStatus K P E)) key = o.cell inc key := by
  simp only [Job.updates, Task.ExecutionStatus.output?, lastUpdate_append, TransactionOutput.cell]
  rw [lastUpdate_map EntryCell.delta, lastUpdate_map (EntryCell.write inc)]

namespace Sequential
variable {base : K → Option Bytes}

variable (base) (program : TxnIndex → Program K (TxnStatus K P E))

/-- The value of a key before a transaction. -/
def valueAt (key : K) (i : TxnIndex) : Option Bytes :=
  (dataMap base program i).bind fun map => currentValue base map key

variable {base} {program}

theorem valueAt_eq {i : TxnIndex} {map : K → Option WriteOp}
    (h : dataMap base program i = some map) (key : K) :
    valueAt base program key i = currentValue base map key := by
  rw [valueAt, h, Option.bind_some]

end Sequential

namespace Speculation
open Anthemius.Sequential
variable {job : Job K P E} {d : Discipline} {s : Speculation K P E m} {limit : K → Option ℕ}
  {outcomes : Outcomes K P E}

/-- Every transaction of the block has settled, and its recorded reads explain its outcome and
agree with the map. -/
structure Finished (job : Job K P E) (outcomes : Outcomes K P E) (s : Speculation K P E m) :
    Prop where
  written : Written outcomes s.mv
  settled : ∀ i < job.numTxns, ∃ inc status reads,
    (columnOf s.mv s.io i).Settles (fun k => outcomes (i, k)) inc status ∧
    s.io.inputs i = some reads ∧ Explains job outcomes i reads (.finished status) ∧
    ∀ r ∈ reads, Matches s.mv i r

theorem Reachable.finished (hd : d.atomicClaims) (hb : d.boundedWaves) (hr : Reachable job d s)
    (hcom : ∀ i < job.numTxns, ∃ inc, s.status i = .committed inc) :
    ∃ outcomes, Finished job outcomes s := by
  obtain ⟨outcomes, hm⟩ := Reachable.mirrorInvariant hr
  refine ⟨outcomes, hm.written, fun i hi => ?_⟩
  obtain ⟨inc, hst⟩ := hcom i hi
  have hmir := hm.mirrored i
  simp only [Mirrored, hst] at hmir
  obtain ⟨status, reads, hset, hin, hx⟩ := hmir
  exact ⟨inc, status, reads, hset, hin, hx,
    (Reachable.readInvariant hd hb hr).committed hst reads hin⟩

section Finished
variable (h : Finished job outcomes s) {i : TxnIndex} (hi : i < job.numTxns)
include h hi

theorem Finished.entry_cases {key : K} {e : Entry} (he : s.mv.entry key i = some e) :
    e.flag = .done ∧ ∃ inc status, (key, e.cell) ∈ Job.updates inc status ∧
      (job.program i).Yields status := by
  obtain ⟨inc, status, reads, hset, -, hx, -⟩ := h.settled i hi
  have hent := hset.entries_eq key
  rw [show (columnOf s.mv s.io i).entries key = s.mv.entry key i from rfl, he] at hent
  obtain ⟨cell, hcell, rfl⟩ := Option.map_eq_some_iff.mp hent.symm
  exact ⟨rfl, inc, status, lastUpdate_mem hcell, Replays.yields hx (.finished status)⟩

theorem Finished.delta_limit (hagg : job.Aggregators limit) {key : K} {flag : Flag} {d : DeltaOp}
    (he : s.mv.entry key i = some ⟨flag, .delta d⟩) : limit key = some d.limit := by
  obtain ⟨-, inc, status, hmem, hy⟩ := h.entry_cases hi he
  obtain ⟨o, ho, hd⟩ := Job.delta_of_updates hmem
  exact hagg.deltas i hi status o hy ho key d hd

theorem Finished.write_decodes (hagg : job.Aggregators limit) {key : K} {flag : Flag}
    {inc : Incarnation} {data : WriteOp} {l : ℕ} (hl : limit key = some l)
    (he : s.mv.entry key i = some ⟨flag, .write inc data⟩) :
    ∃ v, decodeValue data.extractRawBytes = some v := by
  obtain ⟨-, inc, status, hmem, hy⟩ := h.entry_cases hi he
  obtain ⟨o, ho, hw⟩ := Job.write_mem_of_updates hmem
  exact hagg.writes i hi status o hy ho key data l hw hl

/-- If the final map below a transaction fits the sequential values, the transaction did what
it does on the sequential view. -/
theorem Finished.run_eq (hagg : job.Aggregators limit) {map : K → Option WriteOp}
    (hmap : dataMap job.base job.program i = some map)
    (hist : ∀ key, KeyHistory (job.base key) (s.mv.entry key)
        (valueAt job.base job.program key) i) :
    ∃ inc, (columnOf s.mv s.io i).Settles (fun k => outcomes (i, k)) inc
      ((job.program i).run (btreeView job.base map)) := by
  obtain ⟨inc, status, reads, hset, -, hx, hmatch⟩ := h.settled i hi
  suffices hrun : (job.program i).run (btreeView job.base map) = status by
    exact ⟨inc, hrun ▸ hset⟩
  refine Replays.run_eq hx fun r hr value hseen => ?_
  obtain ⟨key, kind⟩ := r
  -- the final map answers the recorded read with the sequential value
  obtain ⟨res, kind', result, hread, hcap, hval⟩ := (hist key).answers
    ((limit key).getD 0)
    (fun j hj e he => (h.entry_cases (hj.trans hi) he).1)
    (fun j hj flag d he => by rw [h.delta_limit (hj.trans hi) hagg he]; rfl)
  obtain ⟨res', hread', hvalid⟩ := hmatch _ hr
  cases hread.symm.trans hread'
  obtain ⟨result', hcap'⟩ := (ReadKind.validate_iff kind res).mp hvalid
  cases hcap.symm.trans hcap'
  have hget : s.mv.getStateValue job.base key i =
      some (.ok (kind, .ok (valueAt job.base job.program key i))) := by
    rw [MVHashMap.getStateValue, hread', Option.bind_some, hcap]
    simp [hval]
  rw [hseen.unique (seen_of_getStateValue h.written hget), valueAt_eq hmap]
  rfl

end Finished

theorem entry_cell {i : TxnIndex} {inc : Incarnation} {o : TransactionOutput K P}
    (h : (columnOf s.mv s.io i).Settles (fun k => outcomes (i, k)) inc (.success o)) (key : K) :
    (s.mv.entry key i).map Entry.cell = o.cell inc key := by
  rw [show s.mv.entry key i = _ from h.entries_eq key, lastUpdate_updates, Option.map_map]
  exact Option.map_id_apply

theorem Finished.history (h : Finished job outcomes s) (hagg : job.Aggregators limit) {n : ℕ}
    (hn : n ≤ job.numTxns) {map : K → Option WriteOp}
    (hmap : dataMap job.base job.program n = some map) (key : K) :
    KeyHistory (job.base key) (s.mv.entry key) (valueAt job.base job.program key) n := by
  induction n generalizing map key with
  | zero => exact ⟨rfl, nofun⟩
  | succ n ih =>
    obtain ⟨before, out, hbefore, hex, rfl⟩ := dataMap_succ.mp hmap
    obtain ⟨o, hrun, hout⟩ := executeTransaction_success hex
    have hist := fun key => ih (by omega) hbefore key
    obtain ⟨inc, hset⟩ := h.run_eq hn hagg hbefore hist
    refine ⟨rfl, fun j hj => ?_⟩
    rcases Nat.lt_succ_iff_lt_or_eq.mp hj with hj | rfl
    · exact (hist key).changes j hj
    · rw [valueAt_eq hbefore, valueAt_eq hmap]
      exact changes_of_output hout (entry_cell (hrun ▸ hset) key)

theorem Finished.recorded (h : Finished job outcomes s) (hagg : job.Aggregators limit)
    {i : TxnIndex} (hi : i < job.numTxns) {map : K → Option WriteOp}
    (hmap : dataMap job.base job.program i = some map) :
    s.io.outputs i =
      some (((job.program i).run (btreeView job.base map)).mapError .userError) := by
  obtain ⟨inc, hset⟩ := h.run_eq hi hagg hmap fun key => h.history hagg hi.le hmap key
  exact hset.output_eq

/-! ## The result of the block -/

/-- What the resolver hands to a transaction, in terms of the sequential values. -/
def resolvedWrites (job : Job K P E) (mv : MVHashMap K) (i : TxnIndex) : List (K × WriteOp) :=
  mv.deltaKeys.flatMap fun key =>
    resolvedWrite key (mv.entry key) (valueAt job.base job.program key) i

theorem Finished.resolve_eq (h : Finished job outcomes s) (hagg : job.Aggregators limit)
    (hk : DeltaKeyInvariant limit s) {map : K → Option WriteOp}
    (hmap : dataMap job.base job.program job.numTxns = some map) :
    resolve s.mv job.base job.numTxns =
      some ((List.range job.numTxns).map (resolvedWrites job s.mv)) := by
  have hist := h.history hagg le_rfl hmap
  refine hk.indexed.resolve_eq (fun key _ => hist key) fun key hkey i hi => ?_
  obtain ⟨l, hl⟩ := hk.aggregator key hkey
  exact (hist key).decodes (hagg.base key l hl)
    (fun j hj flag inc data he => h.write_decodes hj hagg hl he) hi

theorem Finished.merged (h : Finished job outcomes s) (hagg : job.Aggregators limit)
    (hk : DeltaKeyInvariant limit s) {i : TxnIndex} (hi : i < job.numTxns) {out : MergedOutput K P}
    (hex : Executes job.base job.program i out) : ∃ o, s.io.outputs i = some (.success o) ∧
      o.outputWithDeltaWrites (resolvedWrites job s.mv i) = some out := by
  obtain ⟨map, hmap, hex⟩ := hex
  obtain ⟨o, hrun, hout⟩ := executeTransaction_success hex
  have hmap' := dataMap_succ.mpr ⟨map, out, hmap, hex, rfl⟩
  refine ⟨o, by rw [h.recorded hagg hi hmap, hrun]; rfl, ?_⟩
  obtain ⟨inc, hset⟩ := h.run_eq hi hagg hmap (h.history hagg hi.le hmap)
  have hview : btreeView job.base map =
      fun key => .ok (valueAt job.base job.program key i) := by
    funext key
    rw [valueAt_eq hmap, btreeView]
  exact hk.indexed.outputWithDeltaWrites_eq (entry_cell (hrun ▸ hset))
    (fun key => (h.history hagg hi hmap' key).changes i (Nat.lt_succ_self i)) (hview ▸ hout)

end Speculation

namespace State
open Anthemius.Sequential

/-- The end of `execute_transactions_parallel` and the merge of its result: the outputs are
taken, the deltas are resolved unless the result is an error, and both are put together. No
module was published, so there is no race. -/
def executeTransactionsParallel [Inhabited P] (job : Job K P E) (s : State K P E m) :
    Option (Except (Error E) (List (MergedOutput K P))) :=
  ((List.range job.numTxns).mapM s.io.outputs).bind fun outputs =>
    let resolved := resolve s.mv job.base job.numTxns
    match ResultAssembly.executeTransactionsParallel m false TransactionOutput.skipOutput
      (resolved.getD []) outputs with
    | .error err => some (.error err)
    | .ok results => resolved.bind fun _ =>
        (results.mapM fun (x : TransactionOutput K P × List (K × WriteOp)) =>
          x.1.outputWithDeltaWrites x.2).map .ok

variable {job : Job K P E} {s : State K P E m} {limit : K → Option ℕ} {outcomes : Outcomes K P E}

/-- A finished block without failures: the parallel result is the list of sequential outputs. -/
theorem executeTransactionsParallel_eq [Inhabited P] (hm : 0 < m) (hagg : job.Aggregators limit)
    (h : Speculation.Finished job outcomes (s.speculation job))
    (hk : Speculation.DeltaKeyInvariant limit (s.speculation job)) {map : K → Option WriteOp}
    (hmap : dataMap job.base job.program job.numTxns = some map) {outs : List (MergedOutput K P)}
    (houts : List.Forall₂ (fun i out => i < job.numTxns ∧ Executes job.base job.program i out)
      (List.range job.numTxns) outs) :
    s.executeTransactionsParallel job = some (.ok outs) := by
  have hmerged := houts.imp fun i out hi => h.merged hagg hk hi.1 hi.2
  obtain ⟨os, hos, hmerge⟩ : ∃ os : List (TransactionOutput K P),
      (List.range job.numTxns).mapM s.io.outputs = some (os.map .success) ∧
      List.Forall₂ (fun x out => x.1.outputWithDeltaWrites x.2 = some out)
        (os.zip ((List.range job.numTxns).map (Speculation.resolvedWrites job s.mv))) outs := by
    generalize List.range job.numTxns = is at hmerged
    clear houts
    induction hmerged with
    | nil => exact ⟨[], rfl, .nil⟩
    | @cons i out is outs hio _ ih =>
      obtain ⟨o, ho, hout⟩ := hio
      obtain ⟨os, hos, hrest⟩ := ih
      refine ⟨o :: os, ?_, .cons hout hrest⟩
      rw [List.mapM_cons, show s.io.outputs i = _ from ho, hos]
      rfl
  have hresolve : resolve s.mv job.base job.numTxns =
      some ((List.range job.numTxns).map (Speculation.resolvedWrites job s.mv)) :=
    h.resolve_eq hagg hk hmap
  rw [executeTransactionsParallel, hos, Option.bind_some, hresolve]
  simp only [Option.getD_some, ResultAssembly.executeTransactionsParallel_success hm,
    Option.bind_some, mapM_eq_some_iff.mpr hmerge, Option.map_some]

/-- In every run whose claims are all atomic: when all workers have left with `Done`, each
recorded output is that of the transaction on the state its predecessors leave, and the block
has the same result as in sequential execution. -/
theorem Reached.serializable [Inhabited P] (hm : 0 < m) (hagg : job.Aggregators limit)
    (hsucc : ∀ i < job.numTxns, ∀ view, ∃ o, (job.program i).run view = .success o)
    (hs : State.Reached job AtomicClaims s) (hdone : ∀ w, (s.workers w).pc = .exited true) :
    (∀ i < job.numTxns, ∀ map, dataMap job.base job.program i = some map →
      s.io.outputs i =
        some (((job.program i).run (btreeView job.base map)).mapError .userError)) ∧
    ∀ result, executeTransactionsSequential job.base job.program job.numTxns = some result →
      s.executeTransactionsParallel job = some result := by
  have hr : Speculation.Reachable job ⟨True, False, True⟩ (s.speculation job) :=
    State.Reached.speculation (fun _ _ _ h => h) (fun h => h.elim)
      (fun _ _ _ h => h.boundedWaves) hs
  obtain ⟨outcomes, h⟩ := hr.finished trivial trivial fun i hi =>
    hs.committed_of_exited (hdone ⟨0, hm⟩) hi
  refine ⟨fun i hi map hmap => h.recorded hagg hi hmap, fun result hresult => ?_⟩
  obtain ⟨r, hloop, rfl⟩ := Option.map_eq_some_iff.mp hresult
  rw [List.range_eq_range'] at hloop
  obtain ⟨outs, map, rfl, hmap, houts⟩ := loop_executes (by simpa using hsucc) rfl hloop
  rw [Nat.zero_add] at hmap houts
  rw [← List.range_eq_range'] at houts
  have hlen : outs.length = job.numTxns := by simpa using houts.length_eq.symm
  rw [executeTransactionsParallel_eq hm hagg h (hr.deltaKeyInvariant hagg) hmap houts]
  simp [Except.map, ResultAssembly.resizeWith, hlen]

end State

open StatusMachine CommitSoundness

theorem chainBlock_aggregators : chainBlock.Aggregators fun _ => none where
  base := nofun
  writes := nofun
  deltas i hi status o hy ho key d hd := by
    cases i with
    | zero =>
      cases hy
      cases ho
      cases hd
    | succ i =>
      cases hy with
      | readKey value hy =>
        cases hy
        cases ho
        cases hd

theorem chainBlock_success (i : TxnIndex) (view : ℕ → StateValue) :
    ∃ o, (chainBlock.program i).run view = .success o := by
  cases i <;> exact ⟨_, rfl⟩

/-- After the careful run of the chain both executors have the same result. -/
theorem serializable_carefulSchedule : ∃ (s : State ℕ Unit Unit 2)
    (result : Except (Error Unit) (List (MergedOutput ℕ Unit))),
    State.Reached chainBlock AtomicClaims s ∧
    Sequential.executeTransactionsSequential chainBlock.base chainBlock.program 3 = some result ∧
    s.executeTransactionsParallel chainBlock = some result := by
  obtain ⟨s, hr, hdone⟩ : ∃ s : State ℕ Unit Unit 2, State.Reached chainBlock AtomicClaims s ∧
      ∀ w, (s.workers w).pc.isDone = true :=
    State.Reached.of_schedule carefulSchedule (by decide +kernel) (by decide +kernel)
  obtain ⟨result, hresult⟩ := Option.isSome_iff_exists.mp
    (show (Sequential.executeTransactionsSequential chainBlock.base chainBlock.program
      3).isSome = true by decide +kernel)
  exact ⟨s, result, hr, hresult, (hr.serializable (by decide) chainBlock_aggregators
    (fun i _ => chainBlock_success i)
    fun w => Pc.isDone_iff.mp (hdone w)).2 result hresult⟩

/-- In the run with the stale claim all workers leave with `Done`, and transaction 2 is recorded
without its write: it read key 1 before the second incarnation of transaction 1 wrote it. -/
theorem not_serializable_staleSchedule : ∃ s : State ℕ Unit Unit 2,
    State.Reachable chainBlock s ∧ (∀ w, (s.workers w).pc = .exited true) ∧
    ∃ map, Sequential.dataMap chainBlock.base chainBlock.program 2 = some map ∧
      s.io.outputs 2 ≠
        some (((chainBlock.program 2).run (Sequential.btreeView chainBlock.base map)).mapError
          .userError) := by
  obtain ⟨map, hmap, hrun⟩ : ∃ map,
      Sequential.dataMap chainBlock.base chainBlock.program 2 = some map ∧
        decide ((chainBlock.program 2).run (Sequential.btreeView chainBlock.base map) =
          .success ⟨[(2, .modification [1])], [], (), by simp, .nil⟩) = true :=
    Option.map_eq_some_iff.mp (by decide +kernel)
  obtain ⟨s, hr, hdone, hout⟩ : ∃ s : State ℕ Unit Unit 2, State.Reachable chainBlock s ∧
      (∀ w, (s.workers w).pc.isDone = true) ∧
        s.io.outputs 2 ≠ some (.success ⟨[(2, .modification [1])], [], (), by simp, .nil⟩) :=
    State.Reachable.of_schedule staleSchedule (by decide +kernel)
  refine ⟨s, hr, fun w => Pc.isDone_iff.mp (hdone w), map, hmap, ?_⟩
  rw [of_decide_eq_true hrun]
  exact hout

/-- Two deltas of key 0 with different limits, and a reader that writes key 1 if it finds their
sequential result. -/
def mixedProgram : TxnIndex → Program ℕ (TxnStatus ℕ Unit Unit)
  | 0 => .finished (.success (.ofDelta 0 ⟨500, 0, 1000, .plus 0, by decide⟩ ()))
  | 1 => .finished (.success (.ofDelta 0 ⟨1, 0, 50, .plus 1, by decide⟩ ()))
  | _ => .readKey 0 fun value => .finished (.success (.ofWrite
      (if value = .ok (some (serialize 11)) then some (1, .modification [1]) else none) ()))

def mixedBlock : Job ℕ Unit Unit :=
  { chainBlock with
    program := mixedProgram
    base := fun key => if key = 0 then some (serialize 10) else none }

/-- Without a common limit, atomic claims are not enough: merged, the deltas leave the range of
the later limit, so the reader is given an error where the sequential executor shows 11. -/
theorem not_serializable_mixedBlock : ∃ s : State ℕ Unit Unit 2,
    State.Reached mixedBlock AtomicClaims s ∧ (∀ w, (s.workers w).pc = .exited true) ∧
    ∃ map, Sequential.dataMap mixedBlock.base mixedBlock.program 2 = some map ∧
      s.io.outputs 2 ≠
        some (((mixedBlock.program 2).run (Sequential.btreeView mixedBlock.base map)).mapError
          .userError) := by
  obtain ⟨map, hmap, hrun⟩ : ∃ map,
      Sequential.dataMap mixedBlock.base mixedBlock.program 2 = some map ∧
        decide ((mixedBlock.program 2).run (Sequential.btreeView mixedBlock.base map) =
          .success ⟨[(1, .modification [1])], [], (), by simp, .nil⟩) = true :=
    Option.map_eq_some_iff.mp (by decide +kernel)
  obtain ⟨s, hr, hdone, hout⟩ : ∃ s : State ℕ Unit Unit 2, State.Reached mixedBlock AtomicClaims s ∧
      (∀ w, (s.workers w).pc.isDone = true) ∧
        s.io.outputs 2 ≠ some (.success ⟨[(1, .modification [1])], [], (), by simp, .nil⟩) :=
    State.Reached.of_schedule (turns [(0, 103), (1, 8)]) (by decide +kernel) (by decide +kernel)
  refine ⟨s, hr, fun w => Pc.isDone_iff.mp (hdone w), map, hmap, ?_⟩
  rw [of_decide_eq_true hrun]
  exact hout

/-! ## The final map -/

/-- Once a worker has left with `Done`, whatever the order of the steps was, the final map has the
updates of the recorded outputs under the committed incarnations, and no estimate. -/
theorem State.Reachable.settled {m : ℕ} {job : Job K P E} {s : State K P E m}
    {w : Fin m} (hs : State.Reachable job s) (hw : (s.workers w).pc = .exited true) {i : TxnIndex}
    (hi : i < job.numTxns) :
    ∃ inc status, s.sched.txnStatus i = .committed inc ∧
      s.io.outputs i = some (status.mapError .userError) ∧
      ∀ key, s.mv.entry key i = (lastUpdate (Job.updates inc status) key).map (⟨.done, ·⟩) := by
  obtain ⟨inc, hcommitted⟩ := hs.committed_of_exited hw hi
  obtain ⟨outcomes, hmirror⟩ := hs.speculation.mirrorInvariant
  have hmirrored := hmirror.mirrored i
  rw [Speculation.Mirrored, show (s.speculation job).status i = _ from hcommitted] at hmirrored
  obtain ⟨status, _, hsettles, -⟩ := hmirrored
  exact ⟨inc, status, hcommitted, hsettles.output_eq, hsettles.entries_eq⟩

open StatusMachine CommitSoundness in
/-- Also after a run whose result differs from that of sequential execution. -/
theorem settled_staleSchedule : ∃ s : State ℕ Unit Unit 2, State.Reachable chainBlock s ∧
    ∃ inc, ∃ status : TxnStatus ℕ Unit Unit, s.sched.txnStatus 2 = .committed inc ∧
      ∀ key, s.mv.entry key 2 = (lastUpdate (Job.updates inc status) key).map (⟨.done, ·⟩) := by
  obtain ⟨s, hr, hdone⟩ : ∃ s : State ℕ Unit Unit 2, State.Reachable chainBlock s ∧
      (s.workers 0).pc.isDone = true :=
    State.Reachable.of_schedule staleSchedule (by decide +kernel)
  obtain ⟨inc, status, hcommitted, -, hentries⟩ :=
    hr.settled (Pc.isDone_iff.mp hdone) (by decide : 2 < chainBlock.numTxns)
  exact ⟨s, hr, inc, status, hcommitted, hentries⟩

end Anthemius

import Anthemius.SpeculationProtocol
import Anthemius.UpdateLists

/-!
# What the shared data show of a version

Everything the shared data hold of one transaction is its column: its entries in the
multi-version map and its last recorded input and output. Between two steps a column shows
the updates of one version, those of the version before it, or, while an execution applies
its updates, the new updates so far over the keys that only the old version touched.
-/
namespace Anthemius
open UpdateLists

/-- What the shared data hold of one transaction. -/
structure Column (K P E : Type) where
  entries : K → Option Entry
  input : Option (List (ReadDescriptor K))
  output : Option (TxnOutput K P E)

/-- The outcome of every execution that has finished its program. -/
abbrev Outcomes (K P E : Type) := Version → Option (TxnStatus K P E)

variable {K P E : Type} [DecidableEq K]

/-- The updates that the version before an incarnation left behind. -/
def previousUpdates (outcome : Incarnation → Option (TxnStatus K P E)) :
    Incarnation → List (K × EntryCell)
  | 0 => []
  | inc + 1 => (outcome inc).elim [] (Job.updates inc)

def previousOutput (outcome : Incarnation → Option (TxnStatus K P E)) :
    Incarnation → Option (TxnOutput K P E)
  | 0 => none
  | inc + 1 => (outcome inc).map (·.mapError .userError)

/-- The incarnation is the last one with an outcome. -/
structure Latest (outcome : Incarnation → Option (TxnStatus K P E)) (inc : Incarnation)
    (status : TxnStatus K P E) : Prop where
  outcome_eq : outcome inc = some status
  later : ∀ k > inc, outcome k = none

namespace Column
variable {c : Column K P E} {outcome : Incarnation → Option (TxnStatus K P E)} {inc : Incarnation}

/-- The column shows these updates, finished or as estimates. -/
def Shows (c : Column K P E) (updates : List (K × EntryCell)) : Prop :=
  ∀ key, (c.entries key).map Entry.cell = lastUpdate updates key

/-- The column shows exactly these updates, except at some keys that they do not touch. -/
structure Overlays (c : Column K P E) (updates : List (K × EntryCell)) (stale : List K) :
    Prop where
  entries_eq : ∀ key, key ∉ stale → c.entries key = (lastUpdate updates key).map (⟨.done, ·⟩)
  untouched : ∀ key ∈ stale, key ∉ updates.map Prod.fst

/-- The incarnation has no outcome yet. -/
structure Awaits (c : Column K P E) (outcome : Incarnation → Option (TxnStatus K P E))
    (inc : Incarnation) : Prop where
  shows : c.Shows (previousUpdates outcome inc)
  output_eq : c.output = previousOutput outcome inc
  later : ∀ k ≥ inc, outcome k = none

/-- The column while the incarnation executes. -/
def During (c : Column K P E) (outcome : Incarnation → Option (TxnStatus K P E))
    (inc : Incarnation) : ExecutePhase K P E → Prop
  | .running _ _ | .waiting _ _ _ => c.Awaits outcome inc
  | .loadPrevious status _ => Latest outcome inc status ∧
      c.Shows (previousUpdates outcome inc) ∧ c.output = previousOutput outcome inc
  | .applyUpdates status _ updates prev => Latest outcome inc status ∧ prev.Nodup ∧
      ∃ done, Job.updates inc status = done ++ updates ∧ c.Overlays done prev
  | .removeStale status _ prev => Latest outcome inc status ∧
      c.Overlays (Job.updates inc status) prev
  | .recordInput status _ | .recordOutput status => Latest outcome inc status ∧
      c.Overlays (Job.updates inc status) []
  | .setExecuted => ∃ status, Latest outcome inc status ∧
      c.Overlays (Job.updates inc status) [] ∧ c.output = some (status.mapError .userError)

/-- The column of an executed version. -/
structure Settles (c : Column K P E) (outcome : Incarnation → Option (TxnStatus K P E))
    (inc : Incarnation) (status : TxnStatus K P E) : Prop where
  latest : Latest outcome inc status
  entries_eq : ∀ key, c.entries key = (lastUpdate (Job.updates inc status) key).map (⟨.done, ·⟩)
  output_eq : c.output = some (status.mapError .userError)

/-- The column of an executed version some of whose entries may be estimates. -/
structure Keeps (c : Column K P E) (outcome : Incarnation → Option (TxnStatus K P E))
    (inc : Incarnation) (status : TxnStatus K P E) : Prop where
  latest : Latest outcome inc status
  shows : c.Shows (Job.updates inc status)
  output_eq : c.output = some (status.mapError .userError)

theorem Settles.keeps {status : TxnStatus K P E} (h : c.Settles outcome inc status) :
    c.Keeps outcome inc status where
  latest := h.latest
  shows key := by
    rw [h.entries_eq, Option.map_map]
    exact Option.map_id_fun' ▸ rfl
  output_eq := h.output_eq

/-- After an abort the next incarnation starts over what the aborted one left. -/
theorem Keeps.awaits {status : TxnStatus K P E} (h : c.Keeps outcome inc status) :
    c.Awaits outcome (inc + 1) where
  shows := by simpa [previousUpdates, h.latest.outcome_eq] using h.shows
  output_eq := by simpa [previousOutput, h.latest.outcome_eq] using h.output_eq
  later k hk := h.latest.later k hk

end Column

def columnOf (mv : MVHashMap K) (io : TxnLastInputOutput K P E) (i : TxnIndex) : Column K P E :=
  ⟨fun key => mv.entry key i, io.inputs i, io.outputs i⟩

/-! ## The updates of an execution -/

theorem MVHashMap.entry_apply {mv mv' : MVHashMap K} {txn : TxnIndex} {u : K × EntryCell}
    (h : mv.apply txn u = some mv') (key : K) (i : TxnIndex) :
    mv'.entry key i = if key = u.1 ∧ i = txn then some ⟨.done, u.2⟩ else mv.entry key i := by
  obtain ⟨k, cell⟩ := u
  cases cell with
  | write inc data =>
    rw [(MVHashMap.addWrite_some h).1]
    exact mv.entry_insertEntry k key txn i _
  | delta op =>
    cases h
    exact mv.entry_addDelta k key txn i op

omit [DecidableEq K] in
theorem Job.keys_updates (inc : Incarnation) (status : TxnStatus K P E) :
    (Job.updates inc status).map Prod.fst = match status.output? with
      | none => []
      | some o => o.getWrites.map Prod.fst ++ o.getDeltas.map Prod.fst := by
  unfold Job.updates
  cases status.output? <;> simp [Function.comp_def]

omit [DecidableEq K] in
theorem Job.incarnation_of_updates {inc k : Incarnation} {status : TxnStatus K P E} {key : K}
    {data : WriteOp} (h : (key, .write k data) ∈ Job.updates inc status) : k = inc := by
  unfold Job.updates at h
  split at h
  · cases h
  · simp only [List.mem_append, List.mem_map, Prod.mk.injEq, EntryCell.write.injEq, reduceCtorEq,
      and_false, exists_false, or_false] at h
    obtain ⟨x, -, -, hk, -⟩ := h
    exact hk.symm

omit [DecidableEq K] in
/-- Writes come before deltas, and no key is written twice. -/
theorem Job.first_write_of_updates {inc k : Incarnation} {status : TxnStatus K P E} {key : K}
    {data : WriteOp} {done us : List (K × EntryCell)}
    (h : Job.updates inc status = done ++ (key, .write k data) :: us) :
    key ∉ done.map Prod.fst := by
  unfold Job.updates at h
  split at h
  · simp at h
  · rename_i o _
    rcases List.append_eq_append_iff.mp h with ⟨l, hdone, hl⟩ | ⟨l, hwrites, hl⟩
    · -- the write at hand would be a delta
      have hmem : (key, EntryCell.write k data) ∈ o.getDeltas.map (fun x => (x.1, .delta x.2)) := by
        rw [hl]
        simp
      simp at hmem
    · have hl' : (key, EntryCell.write k data) ∈ l := by
        cases l with
        | nil =>
          have hmem : (key, EntryCell.write k data) ∈
              o.getDeltas.map (fun x => (x.1, .delta x.2)) := by
            rw [← List.nil_append (o.getDeltas.map _), ← hl]
            simp
          simp at hmem
        | cons u l =>
          cases hl
          simp
      have hnodup : ((done ++ l).map Prod.fst).Nodup := by
        rw [← hwrites, List.map_map]
        exact o.writes_nodup
      rw [List.map_append, List.nodup_append] at hnodup
      intro hmem
      exact hnodup.2.2 key hmem key (List.mem_map_of_mem hl') rfl

omit [DecidableEq K] in
/-- The version before an incarnation is the one just below it. -/
theorem write_of_previousUpdates {outcome : Incarnation → Option (TxnStatus K P E)}
    {inc k : ℕ} {key : K} {data : WriteOp}
    (h : (key, .write k data) ∈ previousUpdates outcome inc) : inc = k + 1 := by
  cases inc with
  | zero => cases h
  | succ inc =>
    rw [previousUpdates] at h
    cases hout : outcome inc with
    | none =>
      rw [hout] at h
      cases h
    | some status =>
      rw [hout] at h
      rw [Job.incarnation_of_updates h]

theorem mem_modifiedKeys {io : TxnLastInputOutput K P E} {i : TxnIndex} {inc : Incarnation}
    {outcome : Incarnation → Option (TxnStatus K P E)}
    (h : io.outputs i = previousOutput outcome inc) (key : K) :
    key ∈ io.modifiedKeys i ↔ key ∈ (previousUpdates outcome inc).map Prod.fst := by
  unfold TxnLastInputOutput.modifiedKeys
  rw [h]
  cases inc with
  | zero => simp [previousOutput, previousUpdates]
  | succ inc =>
    cases ho : outcome inc with
    | none => simp [previousOutput, previousUpdates, ho]
    | some status =>
      simp only [previousOutput, previousUpdates, ho, Option.map_some, Option.bind_some,
        Task.ExecutionStatus.output?_mapError, Option.elim_some, Job.keys_updates]
      cases status.output? <;> simp

theorem nodup_modifiedKeys (io : TxnLastInputOutput K P E) (i : TxnIndex) :
    (io.modifiedKeys i).Nodup := by
  unfold TxnLastInputOutput.modifiedKeys
  split
  · exact List.nodup_nil
  · exact List.nodup_dedup _

omit [DecidableEq K] in
theorem previous_congr {outcome outcome' : Incarnation → Option (TxnStatus K P E)}
    (inc : Incarnation) (h : ∀ k < inc, outcome' k = outcome k) :
    previousUpdates outcome' inc = previousUpdates outcome inc ∧
      previousOutput outcome' inc = previousOutput outcome inc := by
  cases inc with
  | zero => exact ⟨rfl, rfl⟩
  | succ inc => simp [previousUpdates, previousOutput, h inc (Nat.lt_succ_self inc)]

theorem find?_updates {inc : Incarnation} {status : TxnStatus K P E}
    {done us : List (K × EntryCell)} {key : K} {data : WriteOp}
    (hupd : Job.updates inc status = done ++ (key, .write inc data) :: us) :
    (Job.updates inc status).find? (fun u => u.1 = key) = some (key, .write inc data) := by
  have hdone : done.find? (fun u => u.1 = key) = none := by
    refine List.find?_eq_none.mpr fun u hu hk => Job.first_write_of_updates hupd ?_
    exact List.mem_map.mpr ⟨u, hu, by simpa using hk⟩
  rw [hupd, List.find?_append, hdone]
  simp

end Anthemius

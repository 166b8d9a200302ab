import Anthemius.TransactionTasks
import Mathlib.Data.List.Basic

/-!
# The result of a block

After the workers are done, the recorded outputs are extracted chunk by chunk, in parallel.
A `SkipRest` ends its own chunk only: the outputs of the later chunks are appended after it,
and an `Abort` in one of them becomes the error of the whole block. The sequential executor
stops at the first status that is not a success.
-/
namespace Anthemius.ResultAssembly

variable {T E W α : Type}

/-- The slices of `par_chunks`; the last one may be shorter. -/
def parChunks (size : ℕ) (l : List α) : List (List α) :=
  (List.range ((l.length + size - 1) / size)).map fun j => (l.drop (j * size)).take size

/-- `Vec::resize_with`. -/
def resizeWith (n : ℕ) (fill : α) (l : List α) : List α :=
  l.take n ++ List.replicate (n - l.length) fill

inductive ExtrResult (T E : Type)
  | value (outputs : List T)
  | error (err : Error E)

/-- The loop over one chunk. -/
def extract (innerResults : List T) : List (Task.ExecutionStatus T (Error E)) → ExtrResult T E
  | [] => .value innerResults
  | .success t :: rest => extract (innerResults ++ [t]) rest
  | .skipRest t :: _ => .value (innerResults ++ [t])
  | .abort err :: _ => .error err

/-- The loop over the results of the chunks. -/
def collect (maybeErr : Option (Error E)) (finalResults : List T) :
    List (ExtrResult T E) → Option (Error E) × List T
  | [] => (maybeErr, finalResults)
  | .error err :: _ => (some err, finalResults)
  | .value v :: rest => collect maybeErr (finalResults ++ v) rest

def chunkSize (concurrencyLevel numTxns : ℕ) : ℕ :=
  (numTxns + 4 * concurrencyLevel - 1) / (4 * concurrencyLevel)

section Executors
variable (concurrencyLevel : ℕ) (race : Bool) (skipOutput : T) (resolved : List (List W))

/-- The end of `execute_transactions_parallel`, from the recorded outputs on; `resolved` is what
the delta resolver returns. -/
def executeTransactionsParallel (outputs : List (Task.ExecutionStatus T (Error E))) :
    Except (Error E) (List (T × List W)) :=
  if outputs.isEmpty then .ok []
  else
    let numTxns := outputs.length
    let maybeErr := if race then some .modulePathReadWrite else none
    let chunks := parChunks (chunkSize concurrencyLevel numTxns) outputs
    match collect maybeErr [] (chunks.map (extract [])) with
    | (none, finalResults) | (some .skip, finalResults) =>
      .ok ((resizeWith numTxns skipOutput finalResults).zip resolved)
    | (some err, _) => .error err

/-- The loop of `execute_transactions_sequential` for given statuses. -/
def sequentialLoop (ret : List T) : List (Task.ExecutionStatus T E) → Except (Error E) (List T)
  | [] => .ok ret
  | .success t :: rest => sequentialLoop (ret ++ [t]) rest
  | .skipRest t :: _ => .ok (ret ++ [t])
  | .abort err :: _ => .error (.userError err)

def executeTransactionsSequential (statuses : List (Task.ExecutionStatus T E)) :
    Except (Error E) (List (T × List W)) :=
  (sequentialLoop [] statuses).map fun ret =>
    (resizeWith statuses.length skipOutput ret).map fun t => (t, [])

end Executors

theorem flatten_parChunks {size : ℕ} (hsize : 0 < size) (l : List α) :
    (parChunks size l).flatten = l := by
  have htake (k : ℕ) :
      ((List.range k).map fun j => (l.drop (j * size)).take size).flatten = l.take (k * size) := by
    induction k with
    | zero => simp
    | succ k ih =>
      rw [List.range_succ, List.map_append, List.flatten_append, ih, Nat.succ_mul, List.take_add]
      simp
  rw [parChunks, htake]
  refine List.take_of_length_le ?_
  have := Nat.div_add_mod (l.length + size - 1) size
  have := Nat.mod_lt (l.length + size - 1) hsize
  rw [Nat.mul_comm]
  omega

theorem chunkSize_pos {level : ℕ} {l : List α} (hlevel : 0 < level) (hne : l ≠ []) :
    0 < chunkSize level l.length := by
  have := List.length_pos_of_ne_nil hne
  exact Nat.div_pos (by omega) (by omega)

/-! ## Reading a list of statuses -/

def isSuccess : Task.ExecutionStatus T E → Bool
  | .success _ => true
  | _ => false

/-- The chunks after the one in which the first status that is not a success stands. -/
def lateChunks : List (List (Task.ExecutionStatus T E)) → List (List (Task.ExecutionStatus T E))
  | [] => []
  | chunk :: rest => if chunk.all isSuccess then lateChunks rest else rest

def ExtrResult.prepend (before : List T) : ExtrResult T E → ExtrResult T E
  | .value outputs => .value (before ++ outputs)
  | .error err => .error err

theorem extract_eq_prepend (inner : List T) (l : List (Task.ExecutionStatus T (Error E))) :
    extract inner l = (extract [] l).prepend inner := by
  induction l generalizing inner with
  | nil => simp [extract, ExtrResult.prepend]
  | cons status l ih =>
    cases status with
    | success t =>
      rw [extract, extract, ih, ih ([] ++ [t])]
      cases extract [] l <;> simp [ExtrResult.prepend]
    | _ => simp [extract, ExtrResult.prepend]

theorem extract_append (inner : List T) (a b : List (Task.ExecutionStatus T (Error E))) :
    extract inner (a ++ b) = if a.all isSuccess then
      match extract inner a with
      | .value outputs => extract outputs b
      | .error err => .error err
    else extract inner a := by
  induction a generalizing inner with
  | nil => simp [extract]
  | cons status a ih => cases status <;> simp [extract, isSuccess, ih]

theorem extract_length {inner outputs : List T} {l : List (Task.ExecutionStatus T (Error E))}
    (h : extract inner l = .value outputs) : outputs.length ≤ inner.length + l.length := by
  induction l generalizing inner with
  | nil =>
    cases h
    simp
  | cons status l ih =>
    cases status with
    | success t =>
      have := ih h
      simp only [List.length_append, List.length_cons, List.length_nil] at this ⊢
      omega
    | skipRest t =>
      cases h
      simp
    | abort err => cases h

theorem extract_of_all (inner : List T) {l : List (Task.ExecutionStatus T (Error E))}
    (h : l.all isSuccess = true) : ∃ outputs, extract inner l = .value outputs := by
  induction l generalizing inner with
  | nil => exact ⟨inner, rfl⟩
  | cons status l ih =>
    cases status with
    | success t => exact ih (inner ++ [t]) h
    | _ => simp [isSuccess] at h

/-- One chunk of a list of chunks: a list of successes is read on into the next chunk, anything
else ends the reading. -/
theorem extract_flatten_cons {final : List T} {chunk : List (Task.ExecutionStatus T (Error E))}
    {rest : List (List (Task.ExecutionStatus T (Error E)))} {r : ExtrResult T E}
    (h : extract final (chunk :: rest).flatten = r) :
    (chunk.all isSuccess = true ∧ ∃ v, extract [] chunk = .value v ∧
      extract (final ++ v) rest.flatten = r) ∨
    (chunk.all isSuccess = false ∧ (extract [] chunk).prepend final = r) := by
  rw [List.flatten_cons, extract_append] at h
  by_cases hall : chunk.all isSuccess = true
  · obtain ⟨v, hv⟩ := extract_of_all [] hall
    rw [if_pos hall, extract_eq_prepend, hv] at h
    exact .inl ⟨hall, v, hv, h⟩
  · rw [if_neg hall, extract_eq_prepend] at h
    exact .inr ⟨by simpa using hall, h⟩

theorem mem_of_extract {inner outputs : List T} {l : List (Task.ExecutionStatus T (Error E))}
    (h : extract inner l = .value outputs) {t : T} (ht : t ∈ outputs) :
    t ∈ inner ∨ ∃ status ∈ l, status.output? = some t := by
  induction l generalizing inner with
  | nil =>
    cases h
    exact .inl ht
  | cons status l ih =>
    cases status with
    | success u =>
      rcases ih h with hin | ⟨status, hstatus, hout⟩
      · rcases List.mem_append.mp hin with hin | hin
        · exact .inl hin
        · exact .inr ⟨_, List.mem_cons_self, congrArg some (List.mem_singleton.mp hin).symm⟩
      · exact .inr ⟨status, List.mem_cons_of_mem _ hstatus, hout⟩
    | skipRest u =>
      cases h
      rcases List.mem_append.mp ht with hin | hin
      · exact .inl hin
      · exact .inr ⟨_, List.mem_cons_self, congrArg some (List.mem_singleton.mp hin).symm⟩
    | abort err => cases h

theorem mem_of_collect {maybeErr : Option (Error E)} {final : List T}
    {results : List (ExtrResult T E)} {t : T} (ht : t ∈ (collect maybeErr final results).2) :
    t ∈ final ∨ ∃ v, .value v ∈ results ∧ t ∈ v := by
  induction results generalizing final with
  | nil => exact .inl ht
  | cons result results ih =>
    cases result with
    | error err => exact .inl ht
    | value v =>
      rcases ih ht with hin | ⟨u, hu, hin⟩
      · rcases List.mem_append.mp hin with hin | hin
        · exact .inl hin
        · exact .inr ⟨v, List.mem_cons_self, hin⟩
      · exact .inr ⟨u, List.mem_cons_of_mem _ hu, hin⟩

theorem mem_resizeWith {n : ℕ} {fill t : T} {l : List T} (h : t ∈ resizeWith n fill l) :
    t = fill ∨ t ∈ l := by
  rcases List.mem_append.mp h with h | h
  · exact .inr (List.mem_of_mem_take h)
  · exact .inl (List.mem_replicate.mp h).2

/-- What parallel execution returns was recorded, or stands for a skipped transaction. -/
theorem mem_of_executeTransactionsParallel {level : ℕ} {race : Bool} {skipOutput : T}
    {resolved : List (List W)} {outputs : List (Task.ExecutionStatus T (Error E))}
    {results : List (T × List W)}
    (h : executeTransactionsParallel level race skipOutput resolved outputs = .ok results)
    {x : T × List W} (hx : x ∈ results) :
    x.1 = skipOutput ∨ ∃ status ∈ outputs, status.output? = some x.1 := by
  have hvalues {maybeErr : Option (Error E)} {t : T} (ht : t ∈ (collect maybeErr []
      ((parChunks (chunkSize level outputs.length) outputs).map (extract []))).2) :
      ∃ status ∈ outputs, status.output? = some t := by
    rcases mem_of_collect ht with hnil | ⟨v, hv, ht⟩
    · cases hnil
    · obtain ⟨chunk, hchunk, hext⟩ := List.mem_map.mp hv
      rcases mem_of_extract hext ht with hnil | ⟨status, hstatus, hout⟩
      · cases hnil
      · obtain ⟨j, -, rfl⟩ := List.mem_map.mp hchunk
        exact ⟨status, List.mem_of_mem_drop (List.mem_of_mem_take hstatus), hout⟩
  have hpadded {final : List T} (hfinal : final = (collect
      (if race then some .modulePathReadWrite else none : Option (Error E)) []
      ((parChunks (chunkSize level outputs.length) outputs).map (extract []))).2)
      (hzip : x ∈ (resizeWith outputs.length skipOutput final).zip resolved) :
      x.1 = skipOutput ∨ ∃ status ∈ outputs, status.output? = some x.1 :=
    (mem_resizeWith (List.of_mem_zip hzip).1).imp_right fun hin => hvalues (hfinal ▸ hin)
  unfold executeTransactionsParallel at h
  dsimp only at h
  split at h
  · cases h
    cases hx
  · split at h
    · rename_i hcollect
      cases h
      exact hpadded (by rw [hcollect]) hx
    · rename_i hcollect
      cases h
      exact hpadded (by rw [hcollect]) hx
    · cases h

/-- The chunks together go on like one list up to the first status that is not a success, and
then with the late chunks. -/
theorem collect_of_value (maybeErr : Option (Error E)) {final outputs : List T}
    {chunks : List (List (Task.ExecutionStatus T (Error E)))}
    (h : extract final chunks.flatten = .value outputs) :
    collect maybeErr final (chunks.map (extract [])) =
        collect maybeErr outputs ((lateChunks chunks).map (extract [])) ∧
      outputs.length + (lateChunks chunks).flatten.length ≤
        final.length + chunks.flatten.length := by
  induction chunks generalizing final with
  | nil =>
    cases h
    simp [lateChunks]
  | cons chunk rest ih =>
    rw [lateChunks, List.map_cons, List.flatten_cons, List.length_append]
    rcases extract_flatten_cons h with ⟨hall, v, hv, h⟩ | ⟨hall, h⟩
    · obtain ⟨hc, hlen⟩ := ih h
      have hv' := extract_length hv
      simp only [List.length_append, List.length_nil] at hlen hv'
      rw [if_pos hall, hv]
      exact ⟨hc, by omega⟩
    · cases hx : extract [] chunk with
      | error err =>
        rw [hx] at h
        cases h
      | value v =>
        rw [hx] at h
        cases h
        have hv' := extract_length hx
        simp only [List.length_nil] at hv'
        rw [if_neg (by simp [hall]), List.length_append]
        exact ⟨rfl, by omega⟩

theorem collect_error (maybeErr : Option (Error E)) (final : List T)
    {late : List (List (Task.ExecutionStatus T (Error E)))}
    (h : ¬ ∀ chunk ∈ late, ∃ ts, extract [] chunk = .value ts) :
    ∃ chunk ∈ late, ∃ err, extract [] chunk = .error err ∧
      (collect maybeErr final (late.map (extract []))).1 = some err := by
  induction late generalizing final with
  | nil => exact absurd nofun h
  | cons chunk rest ih =>
    cases hx : extract [] chunk with
    | error err => exact ⟨chunk, List.mem_cons_self, err, hx, by simp [hx, collect]⟩
    | value vs =>
      have hrest : ¬ ∀ chunk ∈ rest, ∃ ts, extract [] chunk = .value ts :=
        fun hr => h (List.forall_mem_cons.mpr ⟨⟨vs, hx⟩, hr⟩)
      obtain ⟨chunk', hmem, err, herr, hc⟩ := ih (final ++ vs) hrest
      exact ⟨chunk', List.mem_cons_of_mem _ hmem, err, herr, by rw [List.map_cons, hx]; exact hc⟩

theorem lateChunks_of_all {chunks : List (List (Task.ExecutionStatus T E))}
    (h : ∀ status ∈ chunks.flatten, isSuccess status = true) : lateChunks chunks = [] := by
  induction chunks with
  | nil => rfl
  | cons chunk rest ih =>
    rw [List.flatten_cons, List.forall_mem_append] at h
    rw [lateChunks, if_pos (List.all_eq_true.mpr h.1), ih h.2]

theorem extract_map_success (inner os : List T) :
    extract (E := E) inner (os.map .success) = .value (inner ++ os) := by
  induction os generalizing inner with
  | nil => simp [extract]
  | cons t os ih => simp [extract, ih]

theorem executeTransactionsParallel_of_all {level : ℕ} (hlevel : 0 < level) (skipOutput : T)
    (resolved : List (List W)) {outputs : List (Task.ExecutionStatus T (Error E))} {os : List T}
    (hall : ∀ status ∈ outputs, isSuccess status = true) (hval : extract [] outputs = .value os) :
    executeTransactionsParallel level false skipOutput resolved outputs =
      .ok ((resizeWith outputs.length skipOutput os).zip resolved) := by
  by_cases hne : outputs = []
  · subst hne
    simp [executeTransactionsParallel, resizeWith]
  · have hflat := flatten_parChunks (chunkSize_pos hlevel hne) outputs
    rw [← hflat] at hval hall
    have hcollect := (collect_of_value none hval).1
    rw [lateChunks_of_all hall] at hcollect
    simp only [executeTransactionsParallel, List.isEmpty_iff, hne, if_false, hcollect, List.map_nil,
      collect, Bool.false_eq_true]

/-- A block of successes without a module race is returned as it is. -/
theorem executeTransactionsParallel_success {level : ℕ} (hlevel : 0 < level) (skipOutput : T)
    (resolved : List (List W)) (os : List T) :
    executeTransactionsParallel (E := E) level false skipOutput resolved (os.map .success) =
      .ok (os.zip resolved) := by
  rw [executeTransactionsParallel_of_all hlevel skipOutput resolved
    (List.forall_mem_map.mpr fun _ _ => rfl) (extract_map_success [] os)]
  simp [resizeWith]

/-! ## Agreement -/

section Agreement
variable {level : ℕ} {race : Bool} {skipOutput : T} {resolved : List (List W)}
  {statuses : List (Task.ExecutionStatus T E)}

end Agreement

end Anthemius.ResultAssembly

import Anthemius.VersionColumns

/-! What an execution has seen. A recorded read of a write names only the version that wrote
it; the outcomes of all finished executions, kept as a ghost, tell what that version wrote.
So the recorded reads determine the run of the program. -/
namespace Anthemius

variable {K P E : Type} [DecidableEq K]

/-- A program went from one point to another with these recorded reads. -/
inductive Replays {R : Type} (seen : ReadDescriptor K → StateValue → Prop) (p : Program K R) :
    List (ReadDescriptor K) → Program K R → Prop
  | start : Replays seen p [] p
  | read {reads key next kind value} (h : Replays seen p reads (.readKey key next))
      (hs : seen ⟨key, kind⟩ value) : Replays seen p (reads ++ [⟨key, kind⟩]) (next value)

section Replay
variable {R : Type} {seen seen' : ReadDescriptor K → StateValue → Prop} {p q : Program K R}
  {reads : List (ReadDescriptor K)}

omit [DecidableEq K] in
theorem Replays.mono (hsub : ∀ r value, seen r value → seen' r value)
    (h : Replays seen p reads q) : Replays seen' p reads q := by
  induction h with
  | start => exact .start
  | read _ hs ih => exact .read ih (hsub _ _ hs)

omit [DecidableEq K] in
/-- If every recorded read saw what a view holds, the program did what it does on the view. -/
theorem Replays.run_eq {view : K → StateValue} (h : Replays seen p reads q)
    (hview : ∀ r ∈ reads, ∀ value, seen r value → value = view r.accessPath) :
    p.run view = q.run view := by
  induction h with
  | start => rfl
  | @read reads key next kind value _ hs ih =>
    rw [ih fun r hr => hview r (List.mem_append_left _ hr), Program.run]
    rw [hview ⟨key, kind⟩ (by simp) value hs]

end Replay

/-- The version showed this write at the key: a second write of the key would have failed. -/
def Wrote (outcomes : Outcomes K P E) (v : Version) (key : K) (data : WriteOp) : Prop :=
  ∃ status, outcomes v = some status ∧
    (Job.updates v.2 status).find? (fun u => u.1 = key) = some (key, .write v.2 data)

theorem Wrote.unique {outcomes : Outcomes K P E} {v : Version} {key : K} {data data' : WriteOp}
    (h : Wrote outcomes v key data) (h' : Wrote outcomes v key data') : data = data' := by
  obtain ⟨status, ho, hf⟩ := h
  obtain ⟨status', ho', hf'⟩ := h'
  obtain rfl := Option.some_inj.mp (ho.symm.trans ho')
  simpa using hf.symm.trans hf'

/-- The value that a recorded read stands for. -/
def Seen (outcomes : Outcomes K P E) (base : K → Option LittleEndianBytes.Bytes)
    (r : ReadDescriptor K) (value : StateValue) : Prop :=
  match r.kind with
  | .version txn inc => ∃ data, Wrote outcomes (txn, inc) r.accessPath data ∧
      value = .ok data.extractRawBytes
  | .resolved x => value = .ok (some (serialize x))
  | .unresolved delta => latestValue (base r.accessPath) (.unresolved delta) = some value
  | .storage => value = .ok (base r.accessPath)
  | .deltaApplicationFailure => value = .ok (some (serialize 0))

theorem Seen.unique {outcomes : Outcomes K P E} {base : K → Option LittleEndianBytes.Bytes}
    {r : ReadDescriptor K} {value value' : StateValue} (h : Seen outcomes base r value)
    (h' : Seen outcomes base r value') : value = value' := by
  obtain ⟨key, kind⟩ := r
  cases kind with
  | version txn inc =>
    obtain ⟨data, hw, rfl⟩ := h
    obtain ⟨data', hw', rfl⟩ := h'
    rw [hw.unique hw']
  | unresolved delta => exact Option.some_inj.mp (Eq.trans (Eq.symm h) h')
  | resolved | storage | deltaApplicationFailure => exact Eq.trans h (Eq.symm h')

/-- Every write in the map is one its version showed. -/
def Written (outcomes : Outcomes K P E) (mv : MVHashMap K) : Prop :=
  ∀ {key i flag inc data}, mv.entry key i = some ⟨flag, .write inc data⟩ →
    Wrote outcomes (i, inc) key data

theorem seen_of_getStateValue {outcomes : Outcomes K P E} {mv : MVHashMap K}
    {base : K → Option LittleEndianBytes.Bytes} {key : K} {txn : TxnIndex} {kind : ReadKind}
    {value : StateValue} (hw : Written outcomes mv)
    (h : mv.getStateValue base key txn = some (.ok (kind, value))) :
    Seen outcomes base ⟨key, kind⟩ value := by
  obtain ⟨res, hres, h⟩ := Option.bind_eq_some_iff.mp h
  rcases res with (_ | delta | dep | _) | (x | ⟨v, data⟩)
  · cases h
    rfl
  · obtain ⟨value', hv, h⟩ := Option.map_eq_some_iff.mp h
    cases h
    exact hv
  · cases h
  · cases h
    rfl
  · cases h
    rfl
  · cases h
    exact ⟨data, hw (MVHashMap.readBelow_version txn none hres), rfl⟩

/-- An execution of transaction `i` gets to `q` with these reads. -/
def Explains (job : Job K P E) (outcomes : Outcomes K P E) (i : TxnIndex)
    (reads : List (ReadDescriptor K)) (q : Program K (TxnStatus K P E)) : Prop :=
  Replays (Seen outcomes job.base) (job.program i) reads q

/-- The recorded reads explain the progress of an execution. -/
def Traced (job : Job K P E) (outcomes : Outcomes K P E) (v : Version) (c : Column K P E) :
    ExecutePhase K P E → Prop
  | .running program reads | .waiting program reads _ => Explains job outcomes v.1 reads program
  | .loadPrevious status reads | .applyUpdates status reads _ _ | .removeStale status reads _
  | .recordInput status reads => Explains job outcomes v.1 reads (.finished status)
  | .recordOutput status => ∃ reads, c.input = some reads ∧
      Explains job outcomes v.1 reads (.finished status)
  | .setExecuted => ∃ reads status, c.input = some reads ∧ outcomes v = some status ∧
      Explains job outcomes v.1 reads (.finished status)

/-- The outcomes of later executions are added, none is changed. -/
def Extends (outcomes outcomes' : Outcomes K P E) : Prop :=
  ∀ v status, outcomes v = some status → outcomes' v = some status

section Extends
variable {outcomes outcomes' : Outcomes K P E} (he : Extends outcomes outcomes')
include he

theorem Wrote.extend {v : Version} {key : K} {data : WriteOp} (h : Wrote outcomes v key data) :
    Wrote outcomes' v key data := by
  obtain ⟨status, ho, hf⟩ := h
  exact ⟨status, he v status ho, hf⟩

theorem Seen.extend {base : K → Option LittleEndianBytes.Bytes} {r : ReadDescriptor K}
    {value : StateValue} (h : Seen outcomes base r value) : Seen outcomes' base r value := by
  obtain ⟨key, kind⟩ := r
  cases kind with
  | version txn inc =>
    obtain ⟨data, hw, hv⟩ := h
    exact ⟨data, hw.extend he, hv⟩
  | _ => exact h

theorem Explains.extend {job : Job K P E} {i : TxnIndex} {reads : List (ReadDescriptor K)}
    {q : Program K (TxnStatus K P E)} (h : Explains job outcomes i reads q) :
    Explains job outcomes' i reads q :=
  Replays.mono (fun _ _ hs => hs.extend he) h

theorem Traced.extend {job : Job K P E} {v : Version} {c : Column K P E}
    {phase : ExecutePhase K P E} (h : Traced job outcomes v c phase) :
    Traced job outcomes' v c phase := by
  cases phase with
  | recordOutput status =>
    obtain ⟨reads, hc, hx⟩ := h
    exact ⟨reads, hc, hx.extend he⟩
  | setExecuted =>
    obtain ⟨reads, status, hc, ho, hx⟩ := h
    exact ⟨reads, status, hc, he v status ho, hx.extend he⟩
  | _ => exact Explains.extend he h

end Extends

end Anthemius

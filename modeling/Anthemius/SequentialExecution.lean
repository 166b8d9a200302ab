import Anthemius.MaterialisedViews
import Anthemius.ResultAssembly
import Anthemius.UpdateLists

/-!
# Sequential execution

The sequential executor runs the transactions one after the other over a map of the writes so
far. The deltas of each output are materialised at once: every delta is applied to the value
that the transaction's own view shows, and becomes a write of the output. Write sets are maps
from keys, so here they are partial functions. `none` is a panic.
-/
namespace Anthemius
open LittleEndianBytes UpdateLists

variable {K P E : Type} [DecidableEq K]

/-- One key of `WriteSetMut::squash`: an operation on top of what the write set holds there. -/
def WriteOp.squash : Option WriteOp → WriteOp → Option (Option WriteOp)
  | none, op => some (some op)
  | some (.modification _), .creation _ | some (.creation _), .creation _ => none
  | some .deletion, .deletion | some .deletion, .modification _ => none
  | some (.modification _), .modification data => some (some (.modification data))
  | some (.creation _), .modification data => some (some (.creation data))
  | some (.modification _), .deletion => some (some .deletion)
  | some .deletion, .creation data => some (some (.modification data))
  | some (.creation _), .deletion => some none

/-- `WriteSetMut::squash`, for the writes of another set in any order. -/
def squash (writeSet : K → Option WriteOp) (other : List (K × WriteOp)) :
    Option (K → Option WriteOp) :=
  other.foldlM (fun ws x => (WriteOp.squash (ws x.1) x.2).map (Function.update ws x.1)) writeSet

/-- An output without deltas. -/
structure MergedOutput (K P : Type) where
  writeSet : K → Option WriteOp
  payload : P

namespace TransactionOutput

/-- The write set of the deltas on a view; an error is unwrapped. -/
def deltaWrites (o : TransactionOutput K P) (view : K → StateValue) : Option (List (K × WriteOp)) :=
  o.getDeltas.mapM fun x => (x.2.tryIntoWriteOp (view x.1)).bind fun op =>
    op.toOption.map fun op => (x.1, op)

def mergeDeltaWrites (o : TransactionOutput K P) (deltaWrites : List (K × WriteOp)) :
    Option (MergedOutput K P) :=
  (squash (lastUpdate o.getWrites) deltaWrites).map (⟨·, o.payload⟩)

/-- How the sequential executor materialises. The source returns a discarded output as it is;
the virtual machine gives it no deltas, so that it takes the first branch here and below. -/
def intoTransactionOutput (o : TransactionOutput K P) (view : K → StateValue) :
    Option (MergedOutput K P) :=
  if o.getDeltas.isEmpty then some ⟨lastUpdate o.getWrites, o.payload⟩
  else (o.deltaWrites view).bind o.mergeDeltaWrites

/-- How the result of parallel execution is merged with the resolved deltas. -/
def outputWithDeltaWrites (o : TransactionOutput K P) (deltaWrites : List (K × WriteOp)) :
    Option (MergedOutput K P) :=
  if o.getDeltas.isEmpty then some ⟨lastUpdate o.getWrites, o.payload⟩
  else if o.getDeltas.length = (deltaWrites.map Prod.fst).dedup.length then
    o.mergeDeltaWrites deltaWrites
  else none

theorem payload_mergeDeltaWrites (o : TransactionOutput K P) {deltaWrites : List (K × WriteOp)}
    {out : MergedOutput K P} (h : o.mergeDeltaWrites deltaWrites = some out) :
    out.payload = o.payload := by
  obtain ⟨writeSet, -, rfl⟩ := Option.map_eq_some_iff.mp h
  rfl

theorem payload_intoTransactionOutput (o : TransactionOutput K P) {view : K → StateValue}
    {out : MergedOutput K P} (h : o.intoTransactionOutput view = some out) :
    out.payload = o.payload := by
  unfold intoTransactionOutput at h
  split at h
  · cases h
    rfl
  · obtain ⟨writes, -, h⟩ := Option.bind_eq_some_iff.mp h
    exact o.payload_mergeDeltaWrites h

theorem payload_outputWithDeltaWrites (o : TransactionOutput K P) {deltaWrites : List (K × WriteOp)}
    {out : MergedOutput K P} (h : o.outputWithDeltaWrites deltaWrites = some out) :
    out.payload = o.payload := by
  unfold outputWithDeltaWrites at h
  split at h
  · cases h
    rfl
  · split at h
    · exact o.payload_mergeDeltaWrites h
    · cases h

end TransactionOutput

namespace Sequential
variable (base : K → Option Bytes) (program : TxnIndex → Program K (TxnStatus K P E))

/-- The value of a key over the writes so far. -/
def currentValue (dataMap : K → Option WriteOp) (key : K) : Option Bytes :=
  match dataMap key with
  | some op => op.extractRawBytes
  | none => base key

def btreeView (dataMap : K → Option WriteOp) (key : K) : StateValue :=
  .ok (currentValue base dataMap key)

/-- `execute_transaction` with materialised deltas. -/
def executeTransaction (view : K → StateValue) (p : Program K (TxnStatus K P E)) :
    Option (Task.ExecutionStatus (MergedOutput K P) E) :=
  match p.run view with
  | .success o => (o.intoTransactionOutput view).map .success
  | .skipRest o => (o.intoTransactionOutput view).map .skipRest
  | .abort e => some (.abort e)

def applyWrites (dataMap writeSet : K → Option WriteOp) : K → Option WriteOp :=
  fun key => (writeSet key).or (dataMap key)

def loop (dataMap : K → Option WriteOp) (ret : List (MergedOutput K P)) :
    List TxnIndex → Option (Except (Error E) (List (MergedOutput K P)))
  | [] => some (.ok ret)
  | i :: rest => (executeTransaction (btreeView base dataMap) (program i)).bind fun
    | .success out => loop (applyWrites dataMap out.writeSet) (ret ++ [out]) rest
    | .skipRest out => some (.ok (ret ++ [out]))
    | .abort e => some (.error (.userError e))

def executeTransactionsSequential [Inhabited P] (numTxns : ℕ) :
    Option (Except (Error E) (List (MergedOutput K P))) :=
  (loop base program (fun _ => none) [] (List.range numTxns)).map
    (·.map (ResultAssembly.resizeWith numTxns ⟨fun _ => none, default⟩))

/-- The writes before a transaction, if all transactions before it succeed. -/
def dataMap : TxnIndex → Option (K → Option WriteOp)
  | 0 => some fun _ => none
  | i + 1 => (dataMap i).bind fun map =>
    (executeTransaction (btreeView base map) (program i)).bind fun
      | .success out => some (applyWrites map out.writeSet)
      | _ => none

end Sequential

/-! ## Materialised deltas -/

/-- Squashing treats every key by itself. -/
theorem squash_eq_some_iff {ws ws' : K → Option WriteOp} {other : List (K × WriteOp)}
    (hn : (other.map Prod.fst).Nodup) : squash ws other = some ws' ↔
      ∀ key, (lastUpdate other key).elim (some (ws key)) (WriteOp.squash (ws key)) =
        some (ws' key) := by
  induction other using List.reverseRecOn generalizing ws' with
  | nil => simp [squash, funext_iff]
  | append_singleton done u ih =>
    rw [List.map_append, List.nodup_append] at hn
    obtain ⟨hdone, -, hnew⟩ := hn
    have hu : lastUpdate done u.1 = none :=
      lastUpdate_eq_none.mpr fun hmem => hnew _ hmem _ (by simp) rfl
    have hstep : squash ws (done ++ [u]) = (squash ws done).bind fun mid =>
        (WriteOp.squash (mid u.1) u.2).map (Function.update mid u.1) := by
      simp [squash, List.foldlM_append, List.foldlM_cons]
    rw [hstep, Option.bind_eq_some_iff]
    simp only [ih hdone, Option.map_eq_some_iff, lastUpdate_concat]
    constructor
    · rintro ⟨mid, hmid, r, hr, rfl⟩ key
      have hmidu : mid u.1 = ws u.1 := by simpa [hu, eq_comm] using hmid u.1
      by_cases hk : key = u.1
      · subst hk
        simpa [hmidu] using hr
      · rw [if_neg (Ne.symm hk), Function.update_of_ne hk]
        exact hmid key
    · intro h
      refine ⟨Function.update ws' u.1 (ws u.1), fun key => ?_, ws' u.1, ?_, by simp⟩
      · by_cases hk : key = u.1
        · subst hk
          simp [hu]
        · rw [Function.update_of_ne hk]
          simpa [Ne.symm hk] using h key
      · simpa using h u.1

theorem squash_congr {ws : K → Option WriteOp} {l l' : List (K × WriteOp)}
    (hl : (l.map Prod.fst).Nodup) (h : l.Perm l') : squash ws l = squash ws l' := by
  have hl' : (l'.map Prod.fst).Nodup := (h.map _).nodup_iff.mp hl
  have hlast : lastUpdate l = lastUpdate l' := by
    funext key
    ext op
    rw [lastUpdate_eq_some_iff hl, lastUpdate_eq_some_iff hl', h.mem_iff]
  ext ws'
  rw [squash_eq_some_iff hl, squash_eq_some_iff hl', hlast]

theorem WriteOp.squash_modification {old result : Option WriteOp} {bytes : Bytes}
    (h : WriteOp.squash old (.modification bytes) = some result) :
    ∃ op, result = some op ∧ op.extractRawBytes = some bytes := by
  rcases old with _ | (_ | _ | _) <;> cases h <;> exact ⟨_, rfl, rfl⟩

namespace TransactionOutput
variable {o : TransactionOutput K P} {out : MergedOutput K P} {value : K → Option Bytes}
  {ws : List (K × WriteOp)}

omit [DecidableEq K] in
theorem deltaWrites_forall₂ (h : o.deltaWrites (fun key => .ok (value key)) = some ws) :
    List.Forall₂ (fun x y => y.1 = x.1 ∧ ∃ bytes, y.2 = .modification bytes ∧
      x.2.Updates (value x.1) (some bytes)) o.getDeltas ws := by
  refine (mapM_eq_some_iff.mp h).imp fun x y hxy => ?_
  obtain ⟨op, hop, hxy⟩ := Option.bind_eq_some_iff.mp hxy
  obtain ⟨op', hop', rfl⟩ := Option.map_eq_some_iff.mp hxy
  cases op with
  | error e => cases hop'
  | ok op =>
    cases hop'
    obtain ⟨bytes, hbytes, old, hold, hup⟩ := DeltaOp.tryIntoWriteOp_eq_ok.mp hop
    cases hold
    exact ⟨rfl, bytes, hbytes, hup⟩

omit [DecidableEq K] in
theorem keys_deltaWrites (h : o.deltaWrites (fun key => .ok (value key)) = some ws) :
    ws.map Prod.fst = o.getDeltas.map Prod.fst := by
  have hf := deltaWrites_forall₂ h
  clear h
  generalize o.getDeltas = deltas at hf
  induction hf with
  | nil => rfl
  | cons hxy _ ih => rw [List.map_cons, List.map_cons, ih, hxy.1]

theorem intoTransactionOutput_key
    (h : o.intoTransactionOutput (fun key => .ok (value key)) = some out) (key : K) :
    match lastUpdate o.getDeltas key with
    | none => out.writeSet key = lastUpdate o.getWrites key
    | some d => ∃ op bytes, out.writeSet key = some op ∧ op.extractRawBytes = some bytes ∧
        d.Updates (value key) (some bytes) := by
  unfold intoTransactionOutput at h
  split at h
  · rename_i hempty
    cases h
    rw [List.isEmpty_iff.mp hempty]
    rfl
  · obtain ⟨ws, hws, h⟩ := Option.bind_eq_some_iff.mp h
    obtain ⟨writeSet, hsq, rfl⟩ := Option.map_eq_some_iff.mp h
    have hn : (ws.map Prod.fst).Nodup := keys_deltaWrites hws ▸ o.deltas_nodup
    have hkey := (squash_eq_some_iff hn).mp hsq key
    have hrel := lastUpdate_forall₂ (R := fun key (d : DeltaOp) op => ∃ bytes,
      op = WriteOp.modification bytes ∧ d.Updates (value key) (some bytes))
        (deltaWrites_forall₂ hws) key
    cases hd : lastUpdate o.getDeltas key with
    | none =>
      rw [hd] at hrel
      cases hw : lastUpdate ws key with
      | some op => rw [hw] at hrel; cases hrel
      | none =>
        rw [hw] at hkey
        exact (Option.some_inj.mp hkey).symm
    | some d =>
      rw [hd] at hrel
      cases hw : lastUpdate ws key with
      | none => rw [hw] at hrel; cases hrel
      | some op =>
        rw [hw] at hrel hkey
        cases hrel with
        | some hop =>
          obtain ⟨bytes, rfl, hup⟩ := hop
          obtain ⟨op, hop, hbytes⟩ := WriteOp.squash_modification hkey
          exact ⟨op, bytes, hop, hbytes, hup⟩

end TransactionOutput

/-! ## The history of a key -/

/-- How the entry of one transaction changes the value of its key. -/
def Entry.Changes (value value' : Option Bytes) : Option Entry → Prop
  | none => value' = value
  | some ⟨_, .write _ data⟩ => value' = data.extractRawBytes
  | some ⟨_, .delta d⟩ => d.Updates value value'

/-- The values of a key before each transaction fit its entries. -/
structure KeyHistory (stored : Option Bytes) (entries : TxnIndex → Option Entry)
    (value : ℕ → Option Bytes) (n : ℕ) : Prop where
  start : value 0 = stored
  changes : ∀ i < n, Entry.Changes (value i) (value (i + 1)) (entries i)

/-- What a read returns to the virtual machine: the recorded kind does not matter here. -/
def Answers (stored : Option Bytes) (read : Option MVHashMapResult) (value : Option Bytes) : Prop :=
  ∃ res kind result, read = some res ∧ captureRead res = .ok (kind, result) ∧
    latestValue stored result = some (.ok value)

section Reads
variable {stored : Option Bytes} {entries : TxnIndex → Option Entry} {value : ℕ → Option Bytes}
  {n : ℕ}

theorem KeyHistory.lower (h : KeyHistory stored entries value (n + 1)) :
    KeyHistory stored entries value n :=
  ⟨h.start, fun i hi => h.changes i (by omega)⟩

theorem KeyHistory.materialised (h : KeyHistory stored entries value n) :
    ∃ op, materialise (.ok stored) entries 0 none n = some (.ok op) ∧
      LatestView.written (.ok stored) op = .ok (value n) := by
  induction n with
  | zero => exact ⟨none, rfl, congrArg Except.ok h.start.symm⟩
  | succ n ih =>
    obtain ⟨op, hop, hvalue⟩ := ih h.lower
    have hch := h.changes n (Nat.lt_succ_self n)
    simp only [materialise, hop, Option.bind_some, Nat.zero_add]
    cases he : entries n with
    | none =>
      rw [he, Entry.Changes] at hch
      exact ⟨op, rfl, hch ▸ hvalue⟩
    | some e =>
      obtain ⟨flag, cell⟩ := e
      cases cell with
      | write inc data =>
        rw [he, Entry.Changes] at hch
        exact ⟨some data, rfl, congrArg Except.ok hch.symm⟩
      | delta d =>
        rw [he, Entry.Changes] at hch
        obtain ⟨bytes, b, r, hold, hb, hr, hnew⟩ := hch
        refine ⟨some (.modification (serialize r)), ?_, congrArg Except.ok hnew.symm⟩
        have hop' := DeltaOp.tryIntoWriteOp_eq_ok.mpr
          ⟨serialize r, rfl, value n, hvalue, bytes, b, r, hold, hb, hr, rfl⟩
        rw [Entry.materialise, hop']
        rfl

theorem answers_of_answer {read : Option MVHashMapResult} {result : Option Bytes}
    (h : LatestView.answer (.ok stored) read = some (.ok (.ok result))) :
    Answers stored read result := by
  obtain ⟨res, hres, h⟩ := Option.bind_eq_some_iff.mp h
  split at h
  · cases h
  · rename_i kind r hc
    obtain ⟨v, hv, h⟩ := Option.map_eq_some_iff.mp h
    cases h
    exact ⟨res, kind, r, hres, hc, LatestView.resolve_ok stored r ▸ hv⟩

theorem KeyHistory.answers (h : KeyHistory stored entries value n) (limit : ℕ)
    (hdone : ∀ i < n, ∀ e, entries i = some e → e.flag = .done)
    (hlimit : ∀ i < n, ∀ flag d, entries i = some ⟨flag, .delta d⟩ → d.limit = limit) :
    Answers stored (MVHashMap.readBelow entries n none) (value n) := by
  obtain ⟨op, hop, hvalue⟩ := h.materialised
  exact answers_of_answer (hvalue ▸ answer_read hdone hlimit hop)

end Reads

namespace Sequential
variable {base : K → Option Bytes} {program : TxnIndex → Program K (TxnStatus K P E)}

/-- The transaction succeeds with this output when its turn comes. -/
def Executes (base : K → Option Bytes) (program : TxnIndex → Program K (TxnStatus K P E))
    (i : TxnIndex) (out : MergedOutput K P) : Prop :=
  ∃ map, dataMap base program i = some map ∧
    executeTransaction (btreeView base map) (program i) = some (.success out)

theorem executeTransaction_success {view : K → StateValue} {p : Program K (TxnStatus K P E)}
    {out : MergedOutput K P} (h : executeTransaction view p = some (.success out)) :
    ∃ o, p.run view = .success o ∧ o.intoTransactionOutput view = some out := by
  unfold executeTransaction at h
  cases hrun : p.run view with
  | success o =>
    rw [hrun] at h
    obtain ⟨out', hout, hs⟩ := Option.map_eq_some_iff.mp h
    cases hs
    exact ⟨o, rfl, hout⟩
  | skipRest o =>
    rw [hrun] at h
    obtain ⟨out', -, hs⟩ := Option.map_eq_some_iff.mp h
    cases hs
  | abort e =>
    rw [hrun] at h
    cases h

theorem executeTransaction_output {view : K → StateValue} {p : Program K (TxnStatus K P E)}
    {status : Task.ExecutionStatus (MergedOutput K P) E} {out : MergedOutput K P}
    (h : executeTransaction view p = some status) (hout : status.output? = some out) :
    ∃ status' o, p.Yields status' ∧ status'.output? = some o ∧ out.payload = o.payload := by
  have hyields := p.yields_run view
  unfold executeTransaction at h
  split at h
  · rename_i o hrun
    obtain ⟨merged, hmerged, rfl⟩ := Option.map_eq_some_iff.mp h
    cases hout
    exact ⟨_, o, hrun ▸ hyields, rfl, o.payload_intoTransactionOutput hmerged⟩
  · rename_i o hrun
    obtain ⟨merged, hmerged, rfl⟩ := Option.map_eq_some_iff.mp h
    cases hout
    exact ⟨_, o, hrun ▸ hyields, rfl, o.payload_intoTransactionOutput hmerged⟩
  · cases h
    cases hout

theorem dataMap_succ {i : TxnIndex} {map' : K → Option WriteOp} :
    dataMap base program (i + 1) = some map' ↔ ∃ map out, dataMap base program i = some map ∧
      executeTransaction (btreeView base map) (program i) = some (.success out) ∧
      map' = applyWrites map out.writeSet := by
  constructor
  · intro h
    obtain ⟨map, hmap, h⟩ := Option.bind_eq_some_iff.mp h
    obtain ⟨status, hst, h⟩ := Option.bind_eq_some_iff.mp h
    cases status with
    | success out =>
      cases h
      exact ⟨map, out, hmap, hst, rfl⟩
    | skipRest | abort => cases h
  · rintro ⟨map, out, hmap, hex, rfl⟩
    rw [dataMap, hmap, Option.bind_some, hex]
    rfl

/-- The loop over a block without `SkipRest` and `Abort` returns what its transactions do. -/
theorem loop_executes {i k : ℕ} {map : K → Option WriteOp} {ret : List (MergedOutput K P)}
    {result : Except (Error E) (List (MergedOutput K P))}
    (hsucc : ∀ j < i + k, ∀ view, ∃ o, (program j).run view = .success o)
    (hmap : dataMap base program i = some map)
    (h : loop base program map ret (List.range' i k) = some result) :
    ∃ outs map', result = .ok (ret ++ outs) ∧ dataMap base program (i + k) = some map' ∧
      List.Forall₂ (fun j out => j < i + k ∧ Executes base program j out)
        (List.range' i k) outs := by
  induction k generalizing i map ret with
  | zero =>
    cases h
    exact ⟨[], map, by simp, hmap, .nil⟩
  | succ k ih =>
    rw [List.range'_succ] at h ⊢
    obtain ⟨status, hst, h⟩ := Option.bind_eq_some_iff.mp h
    obtain ⟨o, ho⟩ := hsucc i (by omega) (btreeView base map)
    have hex := hst
    rw [executeTransaction, ho] at hst
    obtain ⟨out, hout, rfl⟩ := Option.map_eq_some_iff.mp hst
    have hnext := dataMap_succ.mpr ⟨map, out, hmap, hex, rfl⟩
    obtain ⟨outs, map', rfl, hmap', houts⟩ := ih (fun j hj => hsucc j (by omega)) hnext h
    rw [show i + 1 + k = i + (k + 1) by omega] at hmap' houts
    exact ⟨out :: outs, map', by simp, hmap', .cons ⟨by omega, map, hmap, hex⟩ houts⟩

theorem mem_of_loop {is : List TxnIndex} {map : K → Option WriteOp}
    {ret outs : List (MergedOutput K P)}
    (h : loop base program map ret is = some (.ok outs)) {out : MergedOutput K P}
    (hout : out ∈ outs) : out ∈ ret ∨ ∃ i ∈ is, ∃ status o,
      (program i).Yields status ∧ status.output? = some o ∧ out.payload = o.payload := by
  induction is generalizing map ret with
  | nil =>
    cases h
    exact .inl hout
  | cons i is ih =>
    obtain ⟨status, hst, h⟩ := Option.bind_eq_some_iff.mp h
    cases status with
    | success last =>
      rcases ih h with hin | ⟨j, hj, hyields⟩
      · rcases List.mem_append.mp hin with hin | hin
        · exact .inl hin
        · cases List.mem_singleton.mp hin
          exact .inr ⟨i, List.mem_cons_self, executeTransaction_output hst rfl⟩
      · exact .inr ⟨j, List.mem_cons_of_mem _ hj, hyields⟩
    | skipRest last =>
      cases h
      rcases List.mem_append.mp hout with hin | hin
      · exact .inl hin
      · cases List.mem_singleton.mp hin
        exact .inr ⟨i, List.mem_cons_self, executeTransaction_output hst rfl⟩
    | abort err => cases h

end Sequential

end Anthemius

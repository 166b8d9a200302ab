import Anthemius.DeltaResolution

/-!
# Materialised deltas in both executors

The resolver walks up every key once, over all transactions; the sequential executor applies
the deltas of one transaction at a time. If the final map mirrors the recorded outputs, both
see the history of the same values, so they write the same values for the same deltas.
-/
namespace Anthemius
open LittleEndianBytes UpdateLists

variable {K P E : Type} [DecidableEq K]

/-- What the map holds for a transaction with this output: its deltas and, below them, the
writes of one of its incarnations. -/
def TransactionOutput.cell (o : TransactionOutput K P) (inc : Incarnation) (key : K) :
    Option EntryCell :=
  ((lastUpdate o.getDeltas key).map .delta).or ((lastUpdate o.getWrites key).map (.write inc))

/-- What the resolver hands to a transaction, given the values of the keys before each of the
transactions. -/
def MVHashMap.resolvedWrites (mv : MVHashMap K) (value : K → ℕ → Option Bytes) (i : TxnIndex) :
    List (K × WriteOp) :=
  mv.deltaKeys.flatMap fun key => resolvedWrite key (mv.entry key) (value key) i

/-! ## Along the history of the keys -/

/-- If the stored value and all writes are 128-bit words, so are the values in between. -/
theorem KeyHistory.decodes {stored : Option Bytes} {entries : TxnIndex → Option Entry}
    {value : ℕ → Option Bytes} {n : ℕ} (h : KeyHistory stored entries value n)
    (hstored : ∃ v, decodeValue stored = some v)
    (hwrites : ∀ i < n, ∀ flag inc data, entries i = some ⟨flag, .write inc data⟩ →
      ∃ v, decodeValue data.extractRawBytes = some v) {i : ℕ} (hi : i ≤ n) :
    ∃ v, decodeValue (value i) = some v := by
  induction i with
  | zero => exact h.start ▸ hstored
  | succ i ih =>
    have hch := h.changes i hi
    cases he : entries i with
    | none =>
      rw [he, Entry.Changes] at hch
      exact hch ▸ ih (by omega)
    | some e =>
      obtain ⟨flag, cell⟩ := e
      cases cell with
      | write inc data =>
        rw [he, Entry.Changes] at hch
        exact hch ▸ hwrites i hi flag inc data he
      | delta d =>
        rw [he, Entry.Changes] at hch
        obtain ⟨bytes, b, r, -, -, hr, hv⟩ := hch
        rw [hv, decodeValue, deserialize_serialize (DeltaOp.applyTo_lt hr)]
        exact ⟨_, rfl⟩

namespace MVHashMap.Indexed
variable {mv : MVHashMap K} {base : K → Option Bytes} {value : K → ℕ → Option Bytes} {n : ℕ}
  {o : TransactionOutput K P} {out : MergedOutput K P} {inc : Incarnation} {i : TxnIndex}

theorem resolve_eq (hk : mv.Indexed)
    (hist : ∀ key ∈ mv.deltaKeys, KeyHistory (base key) (mv.entry key) (value key) n)
    (hdecode : ∀ key ∈ mv.deltaKeys, ∀ i ≤ n, ∃ v, decodeValue (value key i) = some v) :
    resolve mv base n = some ((List.range n).map (mv.resolvedWrites value)) := by
  have hdata : ∀ key ∈ mv.deltaKeys, ∃ v, mv.data key = some v ∧
      v.versionedMap = mv.entry key := by
    intro key hkey
    obtain ⟨v, hv, -⟩ := (hk.mem_iff key).mp hkey
    exact ⟨v, hv, by funext i; simp [MVHashMap.entry, hv]⟩
  rw [resolve, resolveKeys_eq hk.nodup hdata hist hdecode]
  refine congrArg some (List.map_congr_left fun i hi => ?_)
  simp [resolvedWrites, List.mem_range.mp hi]

theorem perm_deltaWrites (hk : mv.Indexed)
    (hent : ∀ key, (mv.entry key i).map Entry.cell = o.cell inc key)
    (hch : ∀ key, Entry.Changes (value key i) (value key (i + 1)) (mv.entry key i))
    {ws : List (K × WriteOp)} (hws : o.deltaWrites (fun key => .ok (value key i)) = some ws) :
    ws.Perm (mv.resolvedWrites value i) := by
  have hkeys : (ws.map Prod.fst).Nodup := TransactionOutput.keys_deltaWrites hws ▸ o.deltas_nodup
  refine (List.perm_ext_iff_of_nodup hkeys.of_map (nodup_resolvedWrites hk.nodup _ _ i)).mpr ?_
  rintro ⟨key, op⟩
  have hrel := lastUpdate_forall₂ (R := fun key (d : DeltaOp) op => ∃ bytes,
    op = WriteOp.modification bytes ∧ d.Updates (value key i) (some bytes))
    (TransactionOutput.deltaWrites_forall₂ hws) key
  have hent := hent key
  have hch := hch key
  rw [TransactionOutput.cell] at hent
  rw [← lastUpdate_eq_some_iff hkeys, List.mem_flatMap]
  simp only [mem_resolvedWrite, Prod.mk.injEq]
  cases hd : lastUpdate o.getDeltas key with
  | none =>
    rw [hd] at hrel hent
    have hnone : lastUpdate ws key = none := by
      cases hw : lastUpdate ws key with
      | none => rfl
      | some op' => rw [hw] at hrel; cases hrel
    rw [hnone]
    refine iff_of_false (fun h => by cases h) ?_
    rintro ⟨key', -, flag, d, bytes, he, -, rfl, -⟩
    rw [he] at hent
    cases hw : lastUpdate o.getWrites key <;> simp [hw] at hent
  | some d =>
    rw [hd] at hrel hent
    obtain ⟨op', hw⟩ : ∃ op', lastUpdate ws key = some op' := by
      cases hw : lastUpdate ws key with
      | none => rw [hw] at hrel; cases hrel
      | some op' => exact ⟨op', rfl⟩
    rw [hw] at hrel ⊢
    cases hrel with
    | some hop =>
      obtain ⟨bytes, rfl, hup⟩ := hop
      obtain ⟨⟨flag, cell⟩, he, hcell⟩ := Option.map_eq_some_iff.mp hent
      cases hcell
      rw [he, Entry.Changes] at hch
      have hval := hup.unique hch
      constructor
      · intro hop
        cases hop
        exact ⟨key, hk.delta_mem he, flag, d, bytes, he, hval.symm, rfl, rfl⟩
      · rintro ⟨key', -, flag', d', bytes', -, hval', rfl, rfl⟩
        rw [Option.some_inj.mp (hval.trans hval')]

theorem outputWithDeltaWrites_eq (hk : mv.Indexed)
    (hent : ∀ key, (mv.entry key i).map Entry.cell = o.cell inc key)
    (hch : ∀ key, Entry.Changes (value key i) (value key (i + 1)) (mv.entry key i))
    (hout : o.intoTransactionOutput (fun key => .ok (value key i)) = some out) :
    o.outputWithDeltaWrites (mv.resolvedWrites value i) = some out := by
  unfold TransactionOutput.intoTransactionOutput at hout
  unfold TransactionOutput.outputWithDeltaWrites
  split at hout
  · rwa [if_pos ‹_›]
  · rename_i hne
    obtain ⟨ws, hws, hout⟩ := Option.bind_eq_some_iff.mp hout
    have hperm := hk.perm_deltaWrites hent hch hws
    have hkeys := TransactionOutput.keys_deltaWrites hws
    have hnodup : (ws.map Prod.fst).Nodup := hkeys ▸ o.deltas_nodup
    have hlen : o.getDeltas.length = ((mv.resolvedWrites value i).map Prod.fst).dedup.length := by
      rw [List.dedup_eq_self.mpr ((hperm.map Prod.fst).nodup_iff.mp hnodup),
        ← (hperm.map Prod.fst).length_eq, hkeys, List.length_map]
    rw [if_neg hne, if_pos hlen, TransactionOutput.mergeDeltaWrites, ← squash_congr hnodup hperm]
    exact hout

theorem keys_resolvedWrites (hk : mv.Indexed)
    (hent : ∀ key, (mv.entry key i).map Entry.cell = o.cell inc key)
    (hch : ∀ key, Entry.Changes (value key i) (value key (i + 1)) (mv.entry key i))
    (hout : o.intoTransactionOutput (fun key => .ok (value key i)) = some out) :
    ((mv.resolvedWrites value i).map Prod.fst).Perm (o.getDeltas.map Prod.fst) := by
  obtain ⟨ws, hws⟩ : ∃ ws, o.deltaWrites (fun key => .ok (value key i)) = some ws := by
    unfold TransactionOutput.intoTransactionOutput at hout
    split at hout
    · rename_i hempty
      exact ⟨[], by rw [TransactionOutput.deltaWrites, List.isEmpty_iff.mp hempty]; rfl⟩
    · obtain ⟨ws, hws, -⟩ := Option.bind_eq_some_iff.mp hout
      exact ⟨ws, hws⟩
  rw [← TransactionOutput.keys_deltaWrites hws]
  exact ((hk.perm_deltaWrites hent hch hws).map Prod.fst).symm

end MVHashMap.Indexed

namespace Sequential
variable {base : K → Option Bytes}

/-- An executed transaction changes a key in the same way in both executors. -/
theorem changes_of_output {dataMap : K → Option WriteOp} {o : TransactionOutput K P}
    {out : MergedOutput K P} (h : o.intoTransactionOutput (btreeView base dataMap) = some out)
    {inc : Incarnation} {key : K} {e : Option Entry} (he : e.map Entry.cell = o.cell inc key) :
    Entry.Changes (currentValue base dataMap key)
      (currentValue base (applyWrites dataMap out.writeSet) key) e := by
  have hkey := TransactionOutput.intoTransactionOutput_key h key
  rw [TransactionOutput.cell] at he
  cases hd : lastUpdate o.getDeltas key with
  | none =>
    rw [hd] at hkey he
    cases hw : lastUpdate o.getWrites key with
    | none =>
      rw [hw] at he
      cases Option.map_eq_none_iff.mp he
      simp [Entry.Changes, currentValue, applyWrites, hkey, hw]
    | some data =>
      rw [hw] at he
      obtain ⟨⟨flag, cell⟩, rfl, hcell⟩ := Option.map_eq_some_iff.mp he
      cases hcell
      simp [Entry.Changes, currentValue, applyWrites, hkey, hw]
  | some d =>
    rw [hd] at hkey he
    obtain ⟨op, bytes, hop, hbytes, hup⟩ := hkey
    obtain ⟨⟨flag, cell⟩, rfl, hcell⟩ := Option.map_eq_some_iff.mp he
    cases hcell
    simpa [Entry.Changes, currentValue, applyWrites, hop, hbytes] using hup

variable (base) (program : TxnIndex → Program K (TxnStatus K P E))

/-- The writes after the first transactions, one after the other, each of which has to commit:
it succeeds, or succeeds and asks to skip the rest. -/
def stateAfter : ℕ → Option (K → Option WriteOp)
  | 0 => some fun _ => none
  | i + 1 => (stateAfter i).bind fun map =>
    (executeTransaction (btreeView base map) (program i)).bind fun status =>
      status.output?.map fun out => applyWrites map out.writeSet

/-- The recorded outputs are those of the transactions, one after the other. -/
def Recorded (n : ℕ) (outputs : TxnIndex → TransactionOutput K P) : Prop :=
  ∀ i < n, ∀ map, stateAfter base program i = some map →
    ((program i).run (btreeView base map)).output? = some (outputs i)

variable {base} {program} {n i : ℕ} {outputs : TxnIndex → TransactionOutput K P}

theorem executeTransaction_committed {view : K → StateValue} {p : Program K (TxnStatus K P E)}
    {status : Task.ExecutionStatus (MergedOutput K P) E} {out : MergedOutput K P}
    {o : TransactionOutput K P} (h : executeTransaction view p = some status)
    (hout : status.output? = some out) (ho : (p.run view).output? = some o) :
    o.intoTransactionOutput view = some out := by
  unfold executeTransaction at h
  cases hrun : p.run view with
  | success o' | skipRest o' =>
    rw [hrun] at h ho
    obtain ⟨merged, hmerged, rfl⟩ := Option.map_eq_some_iff.mp h
    cases hout
    cases ho
    exact hmerged
  | abort e =>
    rw [hrun] at ho
    cases ho

theorem stateAfter_succ (hrec : Recorded base program n outputs) (hi : i < n)
    {map' : K → Option WriteOp} (h : stateAfter base program (i + 1) = some map') :
    ∃ map out, stateAfter base program i = some map ∧
      (outputs i).intoTransactionOutput (btreeView base map) = some out ∧
      map' = applyWrites map out.writeSet := by
  obtain ⟨map, hmap, h⟩ := Option.bind_eq_some_iff.mp h
  obtain ⟨status, hst, h⟩ := Option.bind_eq_some_iff.mp h
  obtain ⟨out, hout, rfl⟩ := Option.map_eq_some_iff.mp h
  exact ⟨map, out, hmap, executeTransaction_committed hst hout (hrec i hi map hmap), rfl⟩

theorem stateAfter_of_le {j : ℕ} (hj : j ≤ i) (h : (stateAfter base program i).isSome) :
    ∃ map, stateAfter base program j = some map := by
  induction i with
  | zero => exact Nat.le_zero.mp hj ▸ Option.isSome_iff_exists.mp h
  | succ i ih =>
    rcases Nat.le_succ_iff.mp hj with hj | rfl
    · obtain ⟨map', hmap'⟩ := Option.isSome_iff_exists.mp h
      obtain ⟨map, hmap, -⟩ := Option.bind_eq_some_iff.mp hmap'
      exact ih hj (by rw [hmap]; rfl)
    · exact Option.isSome_iff_exists.mp h

end Sequential

/-! ## A map that mirrors the recorded outputs -/

/-- The final map of a block: the entries of a transaction are the deltas and writes of its
recorded output, and nothing is left of other transactions. -/
structure Mirrors (mv : MVHashMap K) (n : ℕ) (outputs : TxnIndex → TransactionOutput K P) :
    Prop where
  indexed : mv.Indexed
  entry : ∀ i < n, ∃ inc, ∀ key, (mv.entry key i).map Entry.cell = (outputs i).cell inc key
  above : ∀ i ≥ n, ∀ key, mv.entry key i = none

open Anthemius.Sequential

namespace Mirrors
variable {mv : MVHashMap K} {base : K → Option Bytes} {n : ℕ}
  {program : TxnIndex → Program K (TxnStatus K P E)} {outputs : TxnIndex → TransactionOutput K P}

/-- The value of a key after the first transactions. -/
def valueAfter (base : K → Option Bytes) (program : TxnIndex → Program K (TxnStatus K P E))
    (key : K) (i : ℕ) : Option Bytes :=
  (stateAfter base program i).bind fun map => currentValue base map key

theorem valueAfter_eq {i : ℕ} {map : K → Option WriteOp}
    (h : stateAfter base program i = some map) (key : K) :
    valueAfter base program key i = currentValue base map key := by
  rw [valueAfter, h, Option.bind_some]

theorem history (hm : Mirrors mv n outputs) (hrec : Recorded base program n outputs)
    (hrun : (stateAfter base program n).isSome) (key : K) :
    KeyHistory (base key) (mv.entry key) (valueAfter base program key) n where
  start := rfl
  changes i hi := by
    obtain ⟨map', hmap'⟩ := stateAfter_of_le (Nat.succ_le_of_lt hi) hrun
    obtain ⟨map, out, hmap, hout, rfl⟩ := stateAfter_succ hrec hi hmap'
    obtain ⟨inc, hent⟩ := hm.entry i hi
    rw [valueAfter_eq hmap, valueAfter_eq hmap']
    exact changes_of_output hout (hent key)

theorem write_mem (hm : Mirrors mv n outputs) {i : ℕ} (hi : i < n) {key : K} {flag : Flag}
    {inc : Incarnation} {data : WriteOp} (he : mv.entry key i = some ⟨flag, .write inc data⟩) :
    (key, data) ∈ (outputs i).getWrites := by
  obtain ⟨inc', hent⟩ := hm.entry i hi
  have hcell := hent key
  rw [he, TransactionOutput.cell] at hcell
  cases hd : lastUpdate (outputs i).getDeltas key with
  | some d =>
    rw [hd] at hcell
    cases hcell
  | none =>
    rw [hd] at hcell
    obtain ⟨data', hdata, hcell⟩ := Option.map_eq_some_iff.mp hcell.symm
    cases hcell
    exact lastUpdate_mem hdata

/-- If the transactions can be executed one after the other and the aggregators hold 128-bit
words, the resolver does not panic. It gives every transaction one write for each of its
deltas, with the value that the transaction leaves at the key, and the merged output is that of
the sequential executor. -/
theorem resolve_sequential (hm : Mirrors mv n outputs) (hrec : Recorded base program n outputs)
    (hrun : (stateAfter base program n).isSome)
    (hbase : ∀ key ∈ mv.deltaKeys, ∃ v, decodeValue (base key) = some v)
    (hwrites : ∀ key ∈ mv.deltaKeys, ∀ i < n, ∀ data, (key, data) ∈ (outputs i).getWrites →
      ∃ v, decodeValue data.extractRawBytes = some v) :
    ∃ resolved, resolve mv base n = some resolved ∧ resolved.length = n ∧
      ∀ i < n, ∃ map map' writes out, stateAfter base program i = some map ∧
        stateAfter base program (i + 1) = some map' ∧ resolved[i]? = some writes ∧
        (writes.map Prod.fst).Perm ((outputs i).getDeltas.map Prod.fst) ∧
        (∀ key op, (key, op) ∈ writes → ∃ bytes, op = .modification bytes ∧
          currentValue base map' key = some bytes) ∧
        (outputs i).outputWithDeltaWrites writes = some out ∧
        (outputs i).intoTransactionOutput (btreeView base map) = some out := by
  have hist := hm.history hrec hrun
  have hresolve := hm.indexed.resolve_eq (n := n) (fun key _ => hist key) fun key hkey i hi =>
    (hist key).decodes (hbase key hkey)
      (fun j hj _ _ data he => hwrites key hkey j hj data (hm.write_mem hj he)) hi
  refine ⟨_, hresolve, by simp, fun i hi => ?_⟩
  obtain ⟨map', hmap'⟩ := stateAfter_of_le (Nat.succ_le_of_lt hi) hrun
  obtain ⟨map, out, hmap, hout, hnext⟩ := stateAfter_succ hrec hi hmap'
  obtain ⟨inc, hent⟩ := hm.entry i hi
  have hview : btreeView base map = fun key => .ok (valueAfter base program key i) := by
    funext key
    rw [valueAfter_eq hmap, btreeView]
  have hch := fun key => (hist key).changes i hi
  rw [hview] at hout
  refine ⟨map, map', _, out, hmap, hmap', by simp [hi], ?_, fun key op hop => ?_,
    hm.indexed.outputWithDeltaWrites_eq hent hch hout, hview ▸ hout⟩
  · exact hm.indexed.keys_resolvedWrites hent hch hout
  · obtain ⟨key', -, hop⟩ := List.mem_flatMap.mp hop
    obtain ⟨flag, d, bytes, -, hvalue, hop⟩ := mem_resolvedWrite.mp hop
    cases hop
    exact ⟨bytes, rfl, valueAfter_eq hmap' key ▸ hvalue⟩

/-! ### A delta and a write of one key -/

/-- The first transaction has a delta at the only key, the second writes it. -/
def deltaThenWrite (d : DeltaOp) (data : WriteOp) : TxnIndex → TransactionOutput Unit Unit
  | 0 => ⟨[], [((), d)], (), by simp, by simp⟩
  | _ => ⟨[((), data)], [], (), by simp, by simp⟩

def deltaThenWriteMap (d : DeltaOp) (data : WriteOp) : MVHashMap Unit :=
  (MVHashMap.new.addDelta () 0 d).insertEntry () 1 ⟨.done, .write 0 data⟩

/-- Programs that do not read. -/
def constant (outputs : TxnIndex → TransactionOutput Unit Unit) (i : TxnIndex) :
    Program Unit (TxnStatus Unit Unit Unit) :=
  .finished (.success (outputs i))

theorem mirrors_deltaThenWrite (d : DeltaOp) (data : WriteOp) :
    Mirrors (deltaThenWriteMap d data) 2 (deltaThenWrite d data) where
  indexed := (MVHashMap.indexed_new.addDelta d).insertEntry fun d hd => by cases hd
  entry i hi := by
    refine ⟨0, fun key => ?_⟩
    rw [deltaThenWriteMap, MVHashMap.entry_insertEntry, MVHashMap.entry_addDelta]
    rcases Nat.lt_succ_iff_lt_or_eq.mp hi with hi | rfl
    · cases Nat.lt_one_iff.mp hi
      rfl
    · rfl
  above i hi key := by
    have h₀ : ¬ (key = () ∧ i = 0) := fun h => absurd (h.2 ▸ hi) (by decide)
    have h₁ : ¬ (key = () ∧ i = 1) := fun h => absurd (h.2 ▸ hi) (by decide)
    rw [deltaThenWriteMap, MVHashMap.entry_insertEntry, MVHashMap.entry_addDelta, if_neg h₁,
      if_neg h₀]
    rfl

theorem recorded_constant (base : Unit → Option Bytes) (n : ℕ)
    (outputs : TxnIndex → TransactionOutput Unit Unit) :
    Recorded base (constant outputs) n outputs :=
  fun _ _ _ _ => rfl

/-- The resolver panics if the delta leaves its limit, and also if it cannot read the later
write as an aggregator, although one after the other the transactions run through. -/
theorem resolve_panics :
    (let d := DeltaOp.deltaAdd 1 5 (by decide)
     let data := WriteOp.modification (serialize 0)
     let base := fun _ : Unit => some (serialize 5)
     Mirrors (deltaThenWriteMap d data) 2 (deltaThenWrite d data) ∧
       Recorded base (constant (deltaThenWrite d data)) 2 (deltaThenWrite d data) ∧
       resolve (deltaThenWriteMap d data) base 2 = none) ∧
    (let d := DeltaOp.deltaAdd 1 6 (by decide)
     let data := WriteOp.modification [1, 2, 3]
     let base := fun _ : Unit => some (serialize 5)
     Mirrors (deltaThenWriteMap d data) 2 (deltaThenWrite d data) ∧
       Recorded base (constant (deltaThenWrite d data)) 2 (deltaThenWrite d data) ∧
       (stateAfter base (constant (deltaThenWrite d data)) 2).isSome ∧
       resolve (deltaThenWriteMap d data) base 2 = none) :=
  ⟨⟨mirrors_deltaThenWrite _ _, recorded_constant _ _ _, by decide +kernel⟩,
    mirrors_deltaThenWrite _ _, recorded_constant _ _ _, by decide +kernel, by decide +kernel⟩

/-- The delta meets the stored value 5, and the key then holds 0. -/
theorem resolve_sequential_words :
    let d := DeltaOp.deltaAdd 1 6 (by decide)
    let data := WriteOp.modification (serialize 0)
    let base := fun _ : Unit => some (serialize 5)
    ∃ resolved, resolve (deltaThenWriteMap d data) base 2 = some resolved ∧
      resolved.length = 2 ∧ ∃ writes out, resolved[0]? = some writes ∧
        writes.map Prod.fst = [()] ∧
        (deltaThenWrite d data 0).outputWithDeltaWrites writes = some out ∧
        (deltaThenWrite d data 0).intoTransactionOutput (btreeView base fun _ => none) =
          some out := by
  intro d data base
  have hdata : ∃ v, decodeValue data.extractRawBytes = some v := ⟨some 0, by decide +kernel⟩
  obtain ⟨resolved, hresolve, hlen, hall⟩ := resolve_sequential (mirrors_deltaThenWrite d data)
    (recorded_constant base 2 (deltaThenWrite d data)) (by decide +kernel)
    (fun _ _ => ⟨some 5, by decide +kernel⟩) fun key _ i _ data' hmem => by
      cases i with
      | zero => cases hmem
      | succ i =>
        cases List.mem_singleton.mp hmem
        exact hdata
  obtain ⟨map, map', writes, out, hmap, -, hwrites, hkeys, -, hout, hinto⟩ := hall 0 (by decide)
  cases hmap
  exact ⟨resolved, hresolve, hlen, writes, out, hwrites, List.perm_singleton.mp hkeys, hout, hinto⟩

end Mirrors

end Anthemius

import Anthemius.SequentialExecution

/-!
# Resolving the deltas of a finished block

The multi-version map lists the keys that had a delta at some time. When the block is done,
the resolver walks up the entries of each of them with the latest value, applies the deltas it
meets and hands the values to the outputs of their transactions. `none` is a panic.
-/
namespace Anthemius
open LittleEndianBytes

variable {K : Type} [DecidableEq K]

/-- A value that is read as an aggregator, if there is one. -/
def decodeValue : Option Bytes → Option (Option ℕ)
  | none => some none
  | some bytes => (deserialize bytes).map some

namespace MVHashMap

/-- Takes the entries of a key out of the map. -/
def entryMapForKey (mv : MVHashMap K) (key : K) :
    Option ((TxnIndex → Option Entry) × MVHashMap K) :=
  (mv.data key).map fun v => (v.versionedMap, { mv with data := Function.update mv.data key none })

end MVHashMap

/-- The delta writes of every transaction. -/
abbrev DeltaWrites (K : Type) := TxnIndex → List (K × WriteOp)

/-- The loop over the entries of one key. -/
def resolveEntries (key : K) (entries : TxnIndex → Option Entry) :
    List TxnIndex → Option ℕ → DeltaWrites K → Option (DeltaWrites K)
  | [], _, ret => some ret
  | idx :: rest, latestValue, ret =>
    match entries idx with
    | none => resolveEntries key entries rest latestValue ret
    | some ⟨_, .write _ data⟩ => (decodeValue data.extractRawBytes).bind fun latestValue =>
        resolveEntries key entries rest latestValue ret
    | some ⟨_, .delta d⟩ => latestValue.bind fun value =>
        (d.applyTo value).toOption.bind fun result =>
        resolveEntries key entries rest (some result)
          (Function.update ret idx (ret idx ++ [(key, .modification (serialize result))]))

def resolveKeys (base : K → Option Bytes) (blockSize : ℕ) :
    List K → MVHashMap K → DeltaWrites K → Option (DeltaWrites K)
  | [], _, ret => some ret
  | key :: keys, mv, ret => (decodeValue (base key)).bind fun latestValue =>
      (mv.entryMapForKey key).bind fun entries =>
        (resolveEntries key entries.1 (List.range blockSize) latestValue ret).bind
          (resolveKeys base blockSize keys entries.2)

/-- `OutputDeltaResolver::resolve`. -/
def resolve (mv : MVHashMap K) (base : K → Option Bytes) (blockSize : ℕ) :
    Option (List (List (K × WriteOp))) :=
  (resolveKeys base blockSize mv.deltaKeys mv fun _ => []).map (List.range blockSize).map

/-! ## The list of delta keys -/

namespace MVHashMap

/-- The list of delta keys is complete, and holds every key once. -/
structure Indexed (mv : MVHashMap K) : Prop where
  nodup : mv.deltaKeys.Nodup
  mem_iff : ∀ key, key ∈ mv.deltaKeys ↔ ∃ v, mv.data key = some v ∧ v.containsDelta = true
  delta_mem : ∀ {key i flag d}, mv.entry key i = some ⟨flag, .delta d⟩ → key ∈ mv.deltaKeys

variable {mv mv' : MVHashMap K} {key : K} {txn : TxnIndex}

omit [DecidableEq K] in
theorem indexed_new : (new : MVHashMap K).Indexed := ⟨.nil, by simp [new], nofun⟩

theorem Indexed.insertEntry (h : mv.Indexed) {e : Entry}
    (he : ∀ d, e.cell = .delta d → key ∈ mv.deltaKeys) : (mv.insertEntry key txn e).Indexed where
  nodup := h.nodup
  mem_iff k := by
    rw [show (mv.insertEntry key txn e).deltaKeys = mv.deltaKeys from rfl, h.mem_iff k]
    by_cases hk : k = key
    · subst hk
      cases hd : mv.data k <;> simp [MVHashMap.insertEntry, hd, VersionedValue.new]
    · simp [MVHashMap.insertEntry, hk]
  delta_mem {k i flag d} hentry := by
    rw [entry_insertEntry] at hentry
    split at hentry
    · rename_i hki
      cases hentry
      exact hki.1 ▸ he d rfl
    · exact h.delta_mem hentry

theorem Indexed.addDelta (h : mv.Indexed) (d : DeltaOp) : (mv.addDelta key txn d).Indexed := by
  have hmem : ∀ k, k ∈ (mv.addDelta key txn d).deltaKeys ↔ k = key ∨ k ∈ mv.deltaKeys := by
    intro k
    cases hd : mv.data key with
    | none => simp [MVHashMap.addDelta, hd, VersionedValue.new, or_comm]
    | some v =>
      cases hv : v.containsDelta with
      | false => simp [MVHashMap.addDelta, hd, hv, or_comm]
      | true =>
        have hkey : key ∈ mv.deltaKeys := (h.mem_iff key).mpr ⟨v, hd, hv⟩
        simp only [MVHashMap.addDelta, hd, Option.getD_some, hv, if_true]
        exact ⟨.inr, fun hk => hk.elim (fun hk => hk ▸ hkey) id⟩
  refine ⟨?_, fun k => ?_, fun {k i flag d'} hentry => ?_⟩
  · unfold MVHashMap.addDelta
    dsimp only
    split
    · exact h.nodup
    · rename_i hv
      refine List.nodup_append.mpr ⟨h.nodup, by simp, fun a ha b hb hab => hv ?_⟩
      obtain ⟨v, hd, hv'⟩ := (h.mem_iff key).mp
        (by simpa [hab ▸ (List.mem_singleton.mp hb)] using ha)
      simpa [hd] using hv'
  · rw [hmem k, h.mem_iff k]
    by_cases hk : k = key
    · simp [MVHashMap.addDelta, hk]
    · simp [MVHashMap.addDelta, hk]
  · rw [entry_addDelta] at hentry
    rw [hmem]
    split at hentry
    · rename_i hki
      exact .inl hki.1
    · exact .inr (h.delta_mem hentry)

theorem Indexed.markEstimate (h : mv.Indexed) (hm : mv.markEstimate key txn = some mv') :
    mv'.Indexed := by
  obtain ⟨⟨flag, cell⟩, he, rfl⟩ := markEstimate_some hm
  refine h.insertEntry fun d hd => ?_
  cases hd
  exact h.delta_mem he

theorem Indexed.delete (h : mv.Indexed) (hm : mv.delete key txn = some mv') : mv'.Indexed := by
  have hentry := entry_delete hm
  obtain ⟨v, hv, rfl⟩ := Option.map_eq_some_iff.mp hm
  refine ⟨h.nodup, fun k => ?_, fun {k i flag d} he => ?_⟩
  · rw [h.mem_iff k]
    by_cases hk : k = key
    · simp [hk, hv]
    · simp [hk]
  · rw [hentry] at he
    split at he
    · cases he
    · exact h.delta_mem he

end MVHashMap

/-! ## What the resolver finds -/

/-- The write that the delta of a transaction amounts to, given the values of the key. -/
def resolvedWrite (key : K) (entries : TxnIndex → Option Entry) (value : ℕ → Option Bytes)
    (i : TxnIndex) : List (K × WriteOp) :=
  match entries i with
  | some ⟨_, .delta _⟩ => (value (i + 1)).toList.map fun bytes => (key, .modification bytes)
  | _ => []

omit [DecidableEq K] in
theorem mem_resolvedWrite {key : K} {entries : TxnIndex → Option Entry} {value : ℕ → Option Bytes}
    {i : TxnIndex} {x : K × WriteOp} : x ∈ resolvedWrite key entries value i ↔
      ∃ flag d bytes, entries i = some ⟨flag, .delta d⟩ ∧ value (i + 1) = some bytes ∧
        x = (key, .modification bytes) := by
  unfold resolvedWrite
  split
  · rename_i flag d he
    simp [he, eq_comm]
  · rename_i hne
    simp only [List.not_mem_nil, false_iff]
    rintro ⟨flag, d, -, he, -⟩
    exact hne flag d he

omit [DecidableEq K] in
theorem nodup_resolvedWrite (key : K) (entries : TxnIndex → Option Entry)
    (value : ℕ → Option Bytes) (i : TxnIndex) : (resolvedWrite key entries value i).Nodup := by
  unfold resolvedWrite
  split
  · cases value (i + 1) <;> simp
  · exact .nil

omit [DecidableEq K] in
theorem nodup_resolvedWrites {keys : List K} (hn : keys.Nodup)
    (entries : K → TxnIndex → Option Entry) (value : K → ℕ → Option Bytes) (i : TxnIndex) :
    (keys.flatMap fun key => resolvedWrite key (entries key) (value key) i).Nodup := by
  refine List.nodup_flatMap.mpr ⟨fun key _ => nodup_resolvedWrite key _ _ i, ?_⟩
  refine hn.imp fun {a b} hab x ha hb => hab ?_
  obtain ⟨_, _, _, -, -, rfl⟩ := mem_resolvedWrite.mp ha
  obtain ⟨_, _, _, -, -, hx⟩ := mem_resolvedWrite.mp hb
  exact congrArg Prod.fst hx

omit [DecidableEq K] in
theorem resolveEntries_eq {stored : Option Bytes} {entries : TxnIndex → Option Entry}
    {value : ℕ → Option Bytes} {n : ℕ} (h : KeyHistory stored entries value n)
    (hdecode : ∀ i ≤ n, ∃ v, decodeValue (value i) = some v) {p k : ℕ} (hpk : p + k = n)
    {latest : Option ℕ} (hlatest : decodeValue (value p) = some latest) (key : K)
    (ret : DeltaWrites K) :
    resolveEntries key entries (List.range' p k) latest ret =
      some fun i => ret i ++ if p ≤ i ∧ i < n then resolvedWrite key entries value i else [] := by
  induction k generalizing p latest ret with
  | zero =>
    have hpn (i : ℕ) : ¬ (p ≤ i ∧ i < n) := by omega
    simp [resolveEntries, hpn]
  | succ k ih =>
    have hch := h.changes p (by omega)
    obtain ⟨v', hv'⟩ := hdecode (p + 1) (by omega)
    have ih := fun {latest : Option ℕ} => @ih (p + 1) (by omega) latest
    -- a transaction without a delta at the key gets nothing
    have hskip (hnone : resolvedWrite key entries value p = []) (i : ℕ) :
        (if p + 1 ≤ i ∧ i < n then resolvedWrite key entries value i else []) =
          if p ≤ i ∧ i < n then resolvedWrite key entries value i else [] := by
      by_cases hi : i = p
      · simp [hi, hnone]
      · have : p + 1 ≤ i ↔ p ≤ i := by omega
        simp only [this]
    rw [List.range'_succ, resolveEntries]
    cases he : entries p with
    | none =>
      rw [he, Entry.Changes] at hch
      dsimp only
      rw [ih (hch ▸ hlatest)]
      simp only [hskip (by rw [resolvedWrite, he])]
    | some e =>
      obtain ⟨flag, cell⟩ := e
      cases cell with
      | write inc data =>
        rw [he, Entry.Changes] at hch
        dsimp only
        rw [← hch, hv', Option.bind_some, ih hv']
        simp only [hskip (by rw [resolvedWrite, he])]
      | delta d =>
        rw [he, Entry.Changes] at hch
        obtain ⟨bytes, b, r, hv, hb, hr, hv₁⟩ := hch
        have hlat : latest = some b := by
          rw [hv, decodeValue, hb] at hlatest
          exact (Option.some_inj.mp hlatest).symm
        have hnext : decodeValue (value (p + 1)) = some (some r) := by
          rw [hv₁, decodeValue, deserialize_serialize (DeltaOp.applyTo_lt hr)]
          rfl
        dsimp only
        rw [hlat, Option.bind_some, hr]
        change resolveEntries key entries (List.range' (p + 1) k) (some r) _ = _
        rw [ih hnext]
        refine congrArg some (funext fun (i : ℕ) => ?_)
        by_cases hi : i = p
        · subst hi
          simp [resolvedWrite, he, hv₁, show i < n by omega]
        · have : p + 1 ≤ i ↔ p ≤ i := by omega
          simp only [Function.update_of_ne hi, this]

theorem resolveKeys_eq {base : K → Option Bytes} {entries : K → TxnIndex → Option Entry}
    {value : K → ℕ → Option Bytes} {n : ℕ} {keys : List K} {mv : MVHashMap K} (hn : keys.Nodup)
    (hdata : ∀ key ∈ keys, ∃ v, mv.data key = some v ∧ v.versionedMap = entries key)
    (h : ∀ key ∈ keys, KeyHistory (base key) (entries key) (value key) n)
    (hdecode : ∀ key ∈ keys, ∀ i ≤ n, ∃ v, decodeValue (value key i) = some v)
    (ret : DeltaWrites K) :
    resolveKeys base n keys mv ret = some fun i => ret i ++
      keys.flatMap fun key =>
        if i < n then resolvedWrite key (entries key) (value key) i else [] := by
  induction keys generalizing mv ret with
  | nil => simp [resolveKeys]
  | cons key keys ih =>
    obtain ⟨hkey, hn⟩ := List.nodup_cons.mp hn
    rw [List.forall_mem_cons] at hdata h hdecode
    obtain ⟨v, hv, hent⟩ := hdata.1
    obtain ⟨latest, hlatest⟩ := hdecode.1 0 (Nat.zero_le n)
    have hmap : mv.entryMapForKey key =
        some (entries key, { mv with data := Function.update mv.data key none }) := by
      simp [MVHashMap.entryMapForKey, hv, hent]
    have hrest : ∀ k ∈ keys, ∃ v, Function.update mv.data key none k = some v ∧
        v.versionedMap = entries k := by
      intro k hk
      have hne : k ≠ key := fun he => hkey (he ▸ hk)
      rw [Function.update_of_ne hne]
      exact hdata.2 k hk
    rw [resolveKeys, ← h.1.start, hlatest, Option.bind_some, hmap, Option.bind_some,
      List.range_eq_range', resolveEntries_eq h.1 hdecode.1 (Nat.zero_add n) hlatest,
      Option.bind_some, ih hn hrest h.2 hdecode.2]
    simp [List.append_assoc]

end Anthemius

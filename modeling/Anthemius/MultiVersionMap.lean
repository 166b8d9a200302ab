import Anthemius.TransactionTasks
import Mathlib.Logic.Function.Basic

/-!
# The multi-version map of a block

Every key maps to the entries that the transactions of the block left there, one entry for
each transaction index. An entry is a write with the incarnation that made it, or a delta;
its flag tells a finished entry from the estimate left by an aborted incarnation. The three
updating operations return `none` where the source panics.
-/
namespace Anthemius
open LittleEndianBytes

inductive Flag
  | done
  | estimate
  deriving DecidableEq

inductive EntryCell
  | write (incarnation : Incarnation) (data : WriteOp)
  | delta (op : DeltaOp)
  deriving DecidableEq

structure Entry where
  flag : Flag
  cell : EntryCell
  deriving DecidableEq

structure VersionedValue where
  versionedMap : TxnIndex → Option Entry
  containsDelta : Bool

def VersionedValue.new : VersionedValue := ⟨fun _ => none, false⟩

structure MVHashMap (K : Type) where
  data : K → Option VersionedValue
  deltaKeys : List K

inductive MVHashMapError
  | notFound
  | unresolved (delta : DeltaOp)
  | dependency (txn : TxnIndex)
  | deltaApplicationFailure
  deriving DecidableEq

inductive MVHashMapOutput
  | resolved (value : ℕ)
  | version (version : Version) (data : WriteOp)
  deriving DecidableEq

abbrev MVHashMapResult := Except MVHashMapError MVHashMapOutput

namespace MVHashMap
variable {K : Type} [DecidableEq K]

def new : MVHashMap K := ⟨fun _ => none, []⟩

/-- The entry of a transaction at a key, if there is one. -/
def entry (m : MVHashMap K) (key : K) (txn : TxnIndex) : Option Entry :=
  (m.data key).bind fun v => v.versionedMap txn

def insertEntry (m : MVHashMap K) (key : K) (txn : TxnIndex) (e : Entry) : MVHashMap K :=
  let v := (m.data key).getD .new
  { m with
    data := Function.update m.data key
      (some { v with versionedMap := Function.update v.versionedMap txn (some e) }) }

/-- An overwritten write must come from a strictly lower incarnation. -/
def addWrite (m : MVHashMap K) (key : K) (version : Version) (data : WriteOp) :
    Option (MVHashMap K) :=
  let inserted := m.insertEntry key version.1 ⟨.done, .write version.2 data⟩
  match m.entry key version.1 with
  | some ⟨_, .write i _⟩ => if i < version.2 then some inserted else none
  | _ => some inserted

def addDelta (m : MVHashMap K) (key : K) (txn : TxnIndex) (delta : DeltaOp) : MVHashMap K :=
  let v := (m.data key).getD .new
  { data := Function.update m.data key
      (some ⟨Function.update v.versionedMap txn (some ⟨.done, .delta delta⟩), true⟩)
    deltaKeys := if v.containsDelta then m.deltaKeys else m.deltaKeys ++ [key] }

def markEstimate (m : MVHashMap K) (key : K) (txn : TxnIndex) : Option (MVHashMap K) :=
  (m.entry key txn).map fun e => m.insertEntry key txn { e with flag := .estimate }

def delete (m : MVHashMap K) (key : K) (txn : TxnIndex) : Option (MVHashMap K) :=
  (m.data key).map fun v =>
    { m with
      data := Function.update m.data key
        (some { v with versionedMap := Function.update v.versionedMap txn none }) }

/-- The walk of `read` down the entries below an index, with the deltas merged so far. The
accumulator keeps a failed merge, since a deletion further down still takes precedence.
`none` is the panic on a write that does not hold an aggregator value. -/
def readBelow (entries : TxnIndex → Option Entry) :
    ℕ → Option (Except Unit DeltaOp) → Option MVHashMapResult
  | 0, none => some (.error .notFound)
  | 0, some (.ok delta) => some (.error (.unresolved delta))
  | 0, some (.error _) => some (.error .deltaApplicationFailure)
  | idx + 1, accumulator =>
    match entries idx with
    | none => readBelow entries idx accumulator
    | some ⟨.estimate, _⟩ => some (.error (.dependency idx))
    | some ⟨.done, .write incarnation data⟩ =>
      match accumulator, data.extractRawBytes with
      | none, _ | some _, none => some (.ok (.version (idx, incarnation) data))
      | some a, some bytes =>
        (deserialize bytes).map fun value =>
          match a.bind fun d => (d.applyTo value).mapError fun _ => () with
          | .ok result => .ok (.resolved result)
          | .error _ => .error .deltaApplicationFailure
    | some ⟨.done, .delta delta⟩ =>
      match accumulator with
      | none => readBelow entries idx (some (.ok delta))
      | some a => readBelow entries idx
          (some (a.bind fun d => (d.mergeOnto delta).mapError fun _ => ()))

def read (m : MVHashMap K) (key : K) (txn : TxnIndex) : Option MVHashMapResult :=
  readBelow (m.entry key) txn none

theorem entry_insertEntry (m : MVHashMap K) (key k : K) (txn i : TxnIndex) (e : Entry) :
    (m.insertEntry key txn e).entry k i = if k = key ∧ i = txn then some e else m.entry k i := by
  unfold entry insertEntry
  by_cases hk : k = key
  · subst hk
    by_cases hi : i = txn
    · simp [hi]
    · cases hd : m.data k <;> simp [hi, VersionedValue.new]
  · simp [hk]

theorem entry_addDelta (m : MVHashMap K) (key k : K) (txn i : TxnIndex) (d : DeltaOp) :
    (m.addDelta key txn d).entry k i =
      if k = key ∧ i = txn then some ⟨.done, .delta d⟩ else m.entry k i := by
  unfold entry addDelta
  by_cases hk : k = key
  · subst hk
    by_cases hi : i = txn
    · simp [hi]
    · cases hd : m.data k <;> simp [hi, VersionedValue.new]
  · simp [hk]

theorem addWrite_some {m m' : MVHashMap K} {key : K} {v : Version} {data : WriteOp}
    (h : m.addWrite key v data = some m') :
    m' = m.insertEntry key v.1 ⟨.done, .write v.2 data⟩ ∧
      ∀ f i d, m.entry key v.1 = some ⟨f, .write i d⟩ → i < v.2 := by
  unfold addWrite at h
  split at h
  · rename_i f i d he
    split at h
    · rename_i hi
      cases h
      refine ⟨rfl, fun f' i' d' he' => ?_⟩
      rw [he] at he'
      cases he'
      exact hi
    · cases h
  · rename_i hne
    cases h
    exact ⟨rfl, fun f i d he => absurd he (hne f i d)⟩

theorem addWrite_isSome {m : MVHashMap K} {key : K} {v : Version} {data : WriteOp}
    (h : ∀ f i d, m.entry key v.1 = some ⟨f, .write i d⟩ → i < v.2) :
    (m.addWrite key v data).isSome := by
  unfold addWrite
  dsimp only
  split
  · rename_i f i d he
    rw [if_pos (h f i d he)]
    rfl
  · rfl

theorem markEstimate_some {m m' : MVHashMap K} {key : K} {txn : TxnIndex}
    (h : m.markEstimate key txn = some m') :
    ∃ e, m.entry key txn = some e ∧ m' = m.insertEntry key txn { e with flag := .estimate } := by
  obtain ⟨e, he, rfl⟩ := Option.map_eq_some_iff.mp h
  exact ⟨e, he, rfl⟩

theorem entry_delete {m m' : MVHashMap K} {key : K} {txn : TxnIndex}
    (h : m.delete key txn = some m') (k : K) (i : TxnIndex) :
    m'.entry k i = if k = key ∧ i = txn then none else m.entry k i := by
  obtain ⟨v, hv, rfl⟩ := Option.map_eq_some_iff.mp h
  unfold entry
  by_cases hk : k = key
  · subst hk
    by_cases hi : i = txn
    · simp [hi]
    · simp [hi, hv]
  · simp [hk]

theorem readBelow_congr {f g : TxnIndex → Option Entry} (n : ℕ) (acc : Option (Except Unit DeltaOp))
    (h : ∀ i < n, f i = g i) : readBelow f n acc = readBelow g n acc := by
  induction n generalizing acc with
  | zero => rcases acc with _ | _ | _ <;> rfl
  | succ n ih =>
    have ih' := fun acc => ih acc fun i hi => h i (by omega)
    simp only [readBelow, h n (by omega), ih']

omit [DecidableEq K] in
theorem read_congr {m m' : MVHashMap K} {key : K} {txn : TxnIndex}
    (h : ∀ i < txn, m.entry key i = m'.entry key i) : m.read key txn = m'.read key txn :=
  readBelow_congr txn none h

theorem readBelow_version {entries : TxnIndex → Option Entry} {v : Version} {data : WriteOp}
    (n : ℕ) (acc : Option (Except Unit DeltaOp))
    (h : readBelow entries n acc = some (.ok (.version v data))) :
    entries v.1 = some ⟨.done, .write v.2 data⟩ := by
  fun_induction readBelow entries n acc with
  | case1 | case2 | case3 | case5 => cases h
  | case4 _ _ _ ih | case9 _ _ _ ih | case10 _ _ _ _ ih => exact ih h
  | case6 _ _ _ he | case7 _ _ _ he =>
    cases h
    exact he
  | case8 =>
    obtain ⟨value, -, h⟩ := Option.map_eq_some_iff.mp h
    split at h <;> cases h

theorem readBelow_dependency {entries : TxnIndex → Option Entry} {dep : TxnIndex} (n : ℕ)
    (acc : Option (Except Unit DeltaOp))
    (h : readBelow entries n acc = some (.error (.dependency dep))) :
    dep < n ∧ ∃ cell, entries dep = some ⟨.estimate, cell⟩ := by
  fun_induction readBelow entries n acc with
  | case1 | case2 | case3 | case6 | case7 => cases h
  | case4 _ _ _ ih | case9 _ _ _ ih | case10 _ _ _ _ ih =>
    exact ⟨Nat.lt_succ_of_lt (ih h).1, (ih h).2⟩
  | case5 _ _ cell he =>
    cases h
    exact ⟨Nat.lt_succ_self _, cell, he⟩
  | case8 =>
    obtain ⟨value, -, h⟩ := Option.map_eq_some_iff.mp h
    split at h <;> cases h

end MVHashMap
end Anthemius

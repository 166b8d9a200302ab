import Anthemius.DeltaOperations
import Mathlib.Logic.Function.Basic

/-!
# Aggregators inside one transaction

An aggregator either knows its value or collects a signed change of a value that it has not
read, with the extremes of that change. The history is kept in the delta states only, so the
source's unwraps of it and the branches marked unreachable have no counterpart here.
-/
namespace Anthemius
open LittleEndianBytes

structure History where
  maxPositive : ℕ
  minNegative : ℕ
  deriving DecidableEq

namespace History

def new : History := ⟨0, 0⟩

def recordPositive (h : History) (value : ℕ) : History :=
  { h with maxPositive := max h.maxPositive value }

def recordNegative (h : History) (value : ℕ) : History :=
  { h with minNegative := max h.minNegative value }

end History

inductive AggregatorState
  | data
  | positiveDelta (history : History)
  | negativeDelta (history : History)
  deriving DecidableEq

structure Aggregator where
  value : ℕ
  state : AggregatorState
  limit : ℕ
  limit_lt : limit < 2 ^ 128

inductive AggregatorError
  | abort (error : PartialVMError)
  | extensionError (message : String)
  | panic
  deriving DecidableEq

/-- The table entries a transaction can look up; a look-up may fail. -/
abbrev TableResolver (Id : Type) := Id → Except Unit (Option Bytes)

namespace Aggregator
variable {Id : Type}

/-- A positive change, recorded in the history. -/
def setPositive (a : Aggregator) (history : History) (value : ℕ) : Aggregator :=
  { a with value := value, state := .positiveDelta (history.recordPositive value) }

/-- A negative change, recorded in the history. -/
def setNegative (a : Aggregator) (history : History) (value : ℕ) : Aggregator :=
  { a with value := value, state := .negativeDelta (history.recordNegative value) }

def setData (a : Aggregator) (value : ℕ) : Aggregator := { a with value := value, state := .data }

def add (a : Aggregator) (value : ℕ) : Except PartialVMError Aggregator :=
  match a.state with
  | .data => (addition a.value value a.limit).map a.setData
  | .positiveDelta history => (addition a.value value a.limit).map (a.setPositive history)
  | .negativeDelta history =>
    if a.value ≤ value then (subtraction value a.value).map (a.setPositive history)
    else (subtraction a.value value).map (a.setNegative history)

def sub (a : Aggregator) (value : ℕ) : Except PartialVMError Aggregator :=
  match a.state with
  | .data => (subtraction a.value value).map a.setData
  | .positiveDelta history =>
    if a.value ≥ value then (subtraction a.value value).map (a.setPositive history)
    else
      (subtraction a.limit value).bind fun _ =>
        (subtraction value a.value).map (a.setNegative history)
  | .negativeDelta history => (addition a.value value a.limit).map (a.setNegative history)

/-- The change as it is exported at the end of the transaction. -/
def deltaOp (a : Aggregator) (history : History) (update : DeltaUpdate) : DeltaOp :=
  ⟨history.maxPositive, history.minNegative, a.limit, update, a.limit_lt⟩

/-- The stored value is checked against the history, then the change is applied to it. -/
def applyToStorage (a : Aggregator) (resolver : TableResolver Id) (id : Id) (history : History)
    (apply : ℕ → Except PartialVMError ℕ) : Except AggregatorError Aggregator :=
  match resolver id with
  | .error _ => .error (.extensionError "could not find the value of the aggregator")
  | .ok none => .error (.extensionError "could not find the value of the aggregator")
  | .ok (some bytes) =>
    match deserialize bytes with
    | none => .error .panic
    | some valueFromStorage =>
      let result : Except PartialVMError ℕ := do
        let _ ← addition valueFromStorage history.maxPositive a.limit
        let _ ← subtraction valueFromStorage history.minNegative
        apply valueFromStorage
      (result.map a.setData).mapError .abort

/-- The value that the source returns is the one the aggregator then has. -/
def readAndMaterialize (resolver : TableResolver Id) (id : Id) (a : Aggregator) :
    Except AggregatorError Aggregator :=
  match a.state with
  | .data => .ok a
  | .positiveDelta history =>
    a.applyToStorage resolver id history fun stored => addition stored a.value a.limit
  | .negativeDelta history =>
    a.applyToStorage resolver id history fun stored => subtraction stored a.value

end Aggregator

/-- What a transaction does to an aggregator once it has it. -/
inductive AggregatorOp
  | add (value : ℕ)
  | sub (value : ℕ)
  | read
  deriving DecidableEq

def Aggregator.perform {Id : Type} (resolver : TableResolver Id) (id : Id) (a : Aggregator) :
    AggregatorOp → Except AggregatorError Aggregator
  | .add value => (a.add value).mapError .abort
  | .sub value => (a.sub value).mapError .abort
  | .read => a.readAndMaterialize resolver id

inductive AggregatorChange
  | write (value : ℕ)
  | merge (delta : DeltaOp)
  | delete
  deriving DecidableEq

/-- The change that an aggregator leaves. -/
def Aggregator.change (a : Aggregator) : AggregatorChange :=
  match a.state with
  | .data => .write a.value
  | .positiveDelta history => .merge (a.deltaOp history (.plus a.value))
  | .negativeDelta history => .merge (a.deltaOp history (.minus a.value))

/-- The aggregators of a transaction. -/
structure AggregatorData (Id : Type) where
  newAggregators : Finset Id
  destroyedAggregators : Finset Id
  aggregators : Id → Option Aggregator

namespace AggregatorData
variable {Id : Type} [DecidableEq Id]

def empty : AggregatorData Id := ⟨∅, ∅, fun _ => none⟩

/-- The entry of an aggregator is replaced. -/
def put (data : AggregatorData Id) (id : Id) (a : Aggregator) : AggregatorData Id :=
  { data with aggregators := Function.update data.aggregators id (some a) }

/-- An aggregator that the transaction has not used before starts as an empty change. -/
def getAggregator (data : AggregatorData Id) (id : Id) (limit : ℕ) (hlimit : limit < 2 ^ 128) :
    AggregatorData Id :=
  data.put id ((data.aggregators id).getD ⟨0, .positiveDelta .new, limit, hlimit⟩)

/-- A native function gets the aggregator and works on it in place. -/
def perform (resolver : TableResolver Id) (id : Id) (limit : ℕ) (hlimit : limit < 2 ^ 128)
    (data : AggregatorData Id) (op : AggregatorOp) :
    Except AggregatorError (AggregatorData Id) :=
  let data := data.getAggregator id limit hlimit
  match data.aggregators id with
  | none => .error .panic
  | some a => (a.perform resolver id op).map (data.put id)

/-- A new aggregator knows its value. -/
def createNewAggregator (data : AggregatorData Id) (id : Id) (limit : ℕ)
    (hlimit : limit < 2 ^ 128) : AggregatorData Id :=
  { data.put id ⟨0, .data, limit, hlimit⟩ with newAggregators := insert id data.newAggregators }

def removeAggregator (data : AggregatorData Id) (id : Id) : AggregatorData Id :=
  let aggregators := Function.update data.aggregators id none
  if id ∈ data.newAggregators then
    { data with aggregators := aggregators, newAggregators := data.newAggregators.erase id }
  else
    { data with
      aggregators := aggregators
      destroyedAggregators := insert id data.destroyedAggregators }

/-- A deletion is inserted last and so replaces any other change. -/
def intoChangeSet (data : AggregatorData Id) (id : Id) : Option AggregatorChange :=
  if id ∈ data.destroyedAggregators then some .delete
  else (data.aggregators id).map Aggregator.change

end AggregatorData

/-! ## The signed change -/

/-- The history after a signed change was seen. -/
def History.record (h : History) (net : ℤ) : History :=
  ⟨max h.maxPositive net.toNat, max h.minNegative (-net).toNat⟩

theorem History.record_natCast (h : History) (value : ℕ) :
    h.record value = h.recordPositive value := by
  simp [History.record, History.recordPositive]

theorem History.record_neg_natCast (h : History) (value : ℕ) :
    h.record (-value) = h.recordNegative value := by
  simp [History.record, History.recordNegative]

namespace Aggregator
variable {Id : Type} {resolver : TableResolver Id} {id : Id} {a a' k : Aggregator} {b x : ℕ}
  {net : ℤ} {h : History}

/-- The aggregator has not read the value; it collects a signed change of it. -/
inductive Collects (a : Aggregator) : ℤ → History → Prop
  | positive {h : History} (hstate : a.state = .positiveDelta h) : Collects a a.value h
  | negative {h : History} (hstate : a.state = .negativeDelta h) : Collects a (-a.value) h

theorem collects_setPositive (a : Aggregator) (h : History) (value : ℕ) :
    (a.setPositive h value).Collects value (h.record value) := by
  rw [History.record_natCast]
  exact .positive rfl

theorem collects_setNegative (a : Aggregator) (h : History) (value : ℕ) :
    (a.setNegative h value).Collects (-value) (h.record (-value)) := by
  rw [History.record_neg_natCast]
  exact .negative rfl

/-- An operation added its operand to the change, or refused it for the given reason. -/
def Moves (a : Aggregator) (h : History) (net : ℤ) (refused : Prop)
    (r : Except PartialVMError Aggregator) : Prop :=
  (∃ a', r = .ok a' ∧ a'.limit = a.limit ∧ a'.Collects net (h.record net)) ∨
    (∃ e, r = .error e) ∧ refused

theorem Moves.positive (a : Aggregator) (h : History) {net : ℤ} {value : ℕ} {refused : Prop}
    (hnet : (value : ℤ) = net) : a.Moves h net refused (.ok (a.setPositive h value)) := by
  subst hnet
  exact .inl ⟨_, rfl, rfl, collects_setPositive a h value⟩

theorem Moves.negative (a : Aggregator) (h : History) {net : ℤ} {value : ℕ} {refused : Prop}
    (hnet : -(value : ℤ) = net) : a.Moves h net refused (.ok (a.setNegative h value)) := by
  subst hnet
  exact .inl ⟨_, rfl, rfl, collects_setNegative a h value⟩

theorem Moves.of_ok {net' : ℤ} {refused : Prop} {r : Except PartialVMError Aggregator}
    (hmoves : a.Moves h net' refused r) (hr : r.mapError AggregatorError.abort = .ok a') :
    a'.limit = a.limit ∧ a'.Collects net' (h.record net') := by
  obtain ⟨a'', rfl, hlimit, hnew⟩ | ⟨⟨e, rfl⟩, -⟩ := hmoves
  · cases hr
    exact ⟨hlimit, hnew⟩
  · cases hr

theorem addition_cases (base value limit : ℕ) :
    addition base value limit = .ok (base + value) ∨
      (∃ e, addition base value limit = .error e) ∧ limit < base + value := by
  by_cases hfit : base + value ≤ limit
  · exact .inl (addition_eq_ok.mpr ⟨hfit, rfl⟩)
  · exact .inr ⟨⟨_, if_pos (by omega)⟩, not_le.mp hfit⟩

theorem subtraction_cases (base value : ℕ) :
    subtraction base value = .ok (base - value) ∧ value ≤ base ∨
      (∃ e, subtraction base value = .error e) ∧ base < value := by
  by_cases hfit : value ≤ base
  · exact .inl ⟨subtraction_eq_ok.mpr ⟨hfit, rfl⟩, hfit⟩
  · exact .inr ⟨⟨_, if_pos (not_le.mp hfit)⟩, not_le.mp hfit⟩

theorem Collects.add (ha : a.Collects net h) (value : ℕ) :
    a.Moves h (net + value) (a.limit < net + value) (a.add value) := by
  cases ha with
  | positive hstate =>
    simp only [Aggregator.add, hstate]
    obtain hadd | ⟨⟨e, hadd⟩, hover⟩ := addition_cases a.value value a.limit
    · rw [hadd]
      apply Moves.positive
      omega
    · rw [hadd]
      exact .inr ⟨⟨e, rfl⟩, by omega⟩
  | negative hstate =>
    simp only [Aggregator.add, hstate]
    split
    · rename_i hle
      rw [subtraction_eq_ok.mpr ⟨hle, rfl⟩]
      apply Moves.positive
      omega
    · rename_i hlt
      rw [subtraction_eq_ok.mpr ⟨by omega, rfl⟩]
      apply Moves.negative
      omega

/-- A change that turns negative is refused if the operand alone exceeds the limit. -/
theorem Collects.sub (ha : a.Collects net h) (value : ℕ) :
    a.Moves h (net - value) (net - value < -a.limit ∨ 0 ≤ net ∧ a.limit < value)
      (a.sub value) := by
  cases ha with
  | positive hstate =>
    simp only [Aggregator.sub, hstate]
    split
    · rename_i hle
      rw [subtraction_eq_ok.mpr ⟨hle, rfl⟩]
      apply Moves.positive
      omega
    · rename_i hlt
      obtain ⟨hsub, -⟩ | ⟨⟨e, hsub⟩, hover⟩ := subtraction_cases a.limit value
      · rw [hsub, subtraction_eq_ok.mpr ⟨show a.value ≤ value by omega, rfl⟩]
        apply Moves.negative
        omega
      · rw [hsub]
        exact .inr ⟨⟨e, rfl⟩, .inr (by omega)⟩
  | negative hstate =>
    simp only [Aggregator.sub, hstate]
    obtain hadd | ⟨⟨e, hadd⟩, hover⟩ := addition_cases a.value value a.limit
    · rw [hadd]
      apply Moves.negative
      omega
    · rw [hadd]
      exact .inr ⟨⟨e, rfl⟩, .inl (by omega)⟩

/-- Reading an aggregator is the same computation as applying what it would export. -/
theorem Collects.read (ha : a.Collects net h) (hstored : resolver id = .ok (some (serialize b)))
    (hb : b < 2 ^ 128) : ∃ d, a.change = .merge d ∧
      a.readAndMaterialize resolver id = ((d.applyTo b).map a.setData).mapError .abort ∧
      ∀ v, d.applyTo b = .ok v ↔ b + h.maxPositive ≤ a.limit ∧ h.minNegative ≤ b ∧
        (v : ℤ) = b + net ∧ v ≤ a.limit := by
  cases ha with
  | positive hstate =>
    refine ⟨a.deltaOp h (.plus a.value), by simp only [change, hstate], ?_, fun v => ?_⟩
    · simp only [readAndMaterialize, applyToStorage, hstate, hstored, deserialize_serialize hb]
      rfl
    · rw [DeltaOp.applyTo_eq_ok]
      simp only [deltaOp, DeltaOp.Takes]
      omega
  | negative hstate =>
    refine ⟨a.deltaOp h (.minus a.value), by simp only [change, hstate], ?_, fun v => ?_⟩
    · simp only [readAndMaterialize, applyToStorage, hstate, hstored, deserialize_serialize hb]
      rfl
    · rw [DeltaOp.applyTo_eq_ok]
      simp only [deltaOp, DeltaOp.Takes]
      omega

/-! ## Two aggregators side by side -/

/-- The stored value takes the change and everything the history has seen into the range. -/
structure Fits (b limit : ℕ) (net : ℤ) (h : History) : Prop where
  above : b + h.maxPositive ≤ limit
  below : h.minNegative ≤ b
  le_maxPositive : net ≤ h.maxPositive
  le_minNegative : -net ≤ h.minNegative

theorem Fits.record {limit : ℕ} (hfits : Fits b limit net h) {net' : ℤ} (hpos : 0 ≤ b + net')
    (hle : b + net' ≤ limit) : Fits b limit net' (h.record net') := by
  obtain ⟨habove, hbelow, -, -⟩ := hfits
  constructor <;> (simp only [History.record]; omega)

/-- The aggregator follows one that knows its value from the beginning. -/
structure Follows (b : ℕ) (a k : Aggregator) : Prop where
  known : k.state = .data
  limit_eq : k.limit = a.limit
  value_le : k.value ≤ a.limit
  agrees : a.state = .data ∧ a.value = k.value ∨
    ∃ net h, a.Collects net h ∧ (k.value : ℤ) = b + net ∧ Fits b a.limit net h

/-- Whatever the aggregator does from now on, reading it will fail. -/
def Spoilt (b : ℕ) (a : Aggregator) : Prop :=
  ∃ net h, a.Collects net h ∧ (a.limit < b + h.maxPositive ∨ b < h.minNegative)

/-- Both take the step, or the one that knows its value refuses it and the other refuses it too
or is spoilt by it. -/
def Matched (b : ℕ) (r r' : Except AggregatorError Aggregator) : Prop :=
  (∃ a k, r = .ok a ∧ r' = .ok k ∧ a.Follows b k) ∨
    (∃ e, r' = .error e) ∧ ∀ a, r = .ok a → a.Spoilt b

/-- A change that the other aggregator can make as well. -/
theorem Moves.matched {k' : Aggregator} {net' : ℤ} {refused : Prop}
    {r : Except PartialVMError Aggregator} (hmoves : a.Moves h net' refused r)
    (hfits : Fits b a.limit net h) (hk' : k'.state = .data) (hlimit : k'.limit = a.limit)
    (hle : k'.value ≤ a.limit) (hvalue : (k'.value : ℤ) = b + net') (hrefused : ¬ refused) :
    Matched b (r.mapError .abort) (.ok k') := by
  obtain ⟨a', rfl, hlimit', hcollects⟩ | ⟨-, hno⟩ := hmoves
  · refine .inl ⟨a', k', rfl, rfl, hk', by rw [hlimit', hlimit], by rw [hlimit']; exact hle,
      .inr ⟨net', _, hcollects, hvalue, ?_⟩⟩
    rw [hlimit']
    exact hfits.record (by omega) (by omega)
  · exact absurd hno hrefused

/-- A change out of the range. -/
theorem Moves.spoilt {net' : ℤ} {refused : Prop} {r : Except PartialVMError Aggregator}
    {e : AggregatorError} (hmoves : a.Moves h net' refused r)
    (hout : b + net' < 0 ∨ a.limit < b + net') : Matched b (r.mapError .abort) (.error e) := by
  refine .inr ⟨⟨e, rfl⟩, fun a' ha' => ?_⟩
  obtain ⟨hlimit, hnew⟩ := hmoves.of_ok ha'
  refine ⟨net', _, hnew, ?_⟩
  simp only [History.record, hlimit]
  omega

/-- The history only grows. -/
theorem Moves.keeps_spoilt {net' : ℤ} {refused : Prop} {r : Except PartialVMError Aggregator}
    (hmoves : a.Moves h net' refused r)
    (hout : a.limit < b + h.maxPositive ∨ b < h.minNegative)
    (hr : r.mapError AggregatorError.abort = .ok a') : a'.Spoilt b := by
  obtain ⟨hlimit, hnew⟩ := hmoves.of_ok hr
  refine ⟨net', _, hnew, ?_⟩
  simp only [History.record, hlimit]
  omega

theorem Follows.add (hf : a.Follows b k) (value : ℕ) :
    Matched b ((a.add value).mapError .abort) ((k.add value).mapError .abort) := by
  obtain ⟨hk, hlimit, hle, ⟨hdata, hvalue⟩ | ⟨net, h, hcollects, hvalue, hfits⟩⟩ := hf
  · simp only [Aggregator.add, hk, hdata, hvalue, hlimit]
    obtain hadd | ⟨⟨e, hadd⟩, hover⟩ := addition_cases k.value value a.limit
    · have hnew := (addition_eq_ok.mp hadd).1
      rw [hadd]
      exact .inl ⟨_, _, rfl, rfl, rfl, hlimit, hnew, .inl ⟨rfl, rfl⟩⟩
    · rw [hadd]
      exact .inr ⟨⟨_, rfl⟩, fun a' ha' => by cases ha'⟩
  · have hkadd : k.add value = (addition k.value value a.limit).map k.setData := by
      simp only [Aggregator.add, hk, hlimit]
    rw [hkadd]
    obtain hadd | ⟨⟨e, hadd⟩, hover⟩ := addition_cases k.value value a.limit
    · have hnew := (addition_eq_ok.mp hadd).1
      rw [hadd]
      refine (hcollects.add value).matched hfits rfl hlimit hnew ?_ (by omega)
      simp only [setData]
      omega
    · rw [hadd]
      exact (hcollects.add value).spoilt (.inr (by omega))

theorem Follows.sub (hf : a.Follows b k) (value : ℕ) :
    Matched b ((a.sub value).mapError .abort) ((k.sub value).mapError .abort) := by
  obtain ⟨hk, hlimit, hle, ⟨hdata, hvalue⟩ | ⟨net, h, hcollects, hvalue, hfits⟩⟩ := hf
  · simp only [Aggregator.sub, hk, hdata, hvalue]
    obtain ⟨hsub, hfit⟩ | ⟨⟨e, hsub⟩, hover⟩ := subtraction_cases k.value value
    · rw [hsub]
      exact .inl ⟨_, _, rfl, rfl, rfl, hlimit, (Nat.sub_le _ _).trans hle, .inl ⟨rfl, rfl⟩⟩
    · rw [hsub]
      exact .inr ⟨⟨_, rfl⟩, fun a' ha' => by cases ha'⟩
  · have hksub : k.sub value = (subtraction k.value value).map k.setData := by
      simp only [Aggregator.sub, hk]
    rw [hksub]
    obtain ⟨hsub, hfit⟩ | ⟨⟨e, hsub⟩, hover⟩ := subtraction_cases k.value value
    · have habove := hfits.above
      rw [hsub]
      refine (hcollects.sub value).matched hfits rfl hlimit ((Nat.sub_le _ _).trans hle) ?_
        (by omega)
      simp only [setData]
      omega
    · rw [hsub]
      exact (hcollects.sub value).spoilt (.inl (by omega))

theorem run_cons {op : AggregatorOp} {ops : List AggregatorOp}
    (h : (op :: ops).foldlM (Aggregator.perform resolver id) a = .ok a') :
    ∃ a₁, a.perform resolver id op = .ok a₁ ∧
      ops.foldlM (Aggregator.perform resolver id) a₁ = .ok a' := by
  rw [List.foldlM_cons] at h
  cases hop : a.perform resolver id op with
  | error e =>
    rw [hop] at h
    cases h
  | ok a₁ =>
    rw [hop] at h
    exact ⟨a₁, rfl, h⟩

section Runs
variable (hstored : resolver id = .ok (some (serialize b))) (hb : b < 2 ^ 128)
include hstored hb

theorem Follows.read (hf : a.Follows b k) : ∃ a', a.readAndMaterialize resolver id = .ok a' ∧
    a'.value = k.value ∧ a'.Follows b k := by
  obtain ⟨hk, hlimit, hle, ⟨hdata, hvalue⟩ | ⟨net, h, hcollects, hvalue, hfits⟩⟩ := hf
  · refine ⟨a, by simp only [readAndMaterialize, hdata], hvalue, hk, hlimit, hle, .inl ?_⟩
    exact ⟨hdata, hvalue⟩
  · obtain ⟨d, -, hread, happly⟩ := hcollects.read hstored hb
    rw [hread, (happly k.value).mpr ⟨hfits.above, hfits.below, hvalue, hle⟩]
    exact ⟨_, rfl, rfl, hk, hlimit, hle, .inl ⟨rfl, rfl⟩⟩

theorem Spoilt.read (hs : a.Spoilt b) : ∃ d e, a.change = .merge d ∧ d.applyTo b = .error e ∧
    a.readAndMaterialize resolver id = .error (.abort e) := by
  obtain ⟨net, h, hcollects, hout⟩ := hs
  obtain ⟨d, hchange, hread, happly⟩ := hcollects.read hstored hb
  cases hd : d.applyTo b with
  | ok v =>
    obtain ⟨habove, hbelow, -⟩ := (happly v).mp hd
    omega
  | error e =>
    refine ⟨d, e, hchange, hd, ?_⟩
    rw [hread, hd]
    rfl

theorem Spoilt.perform (hs : a.Spoilt b) {op : AggregatorOp}
    (hop : a.perform resolver id op = .ok a') : a'.Spoilt b := by
  cases op with
  | add value =>
    obtain ⟨net, h, hcollects, hout⟩ := hs
    exact (hcollects.add value).keeps_spoilt hout hop
  | sub value =>
    obtain ⟨net, h, hcollects, hout⟩ := hs
    exact (hcollects.sub value).keeps_spoilt hout hop
  | read =>
    obtain ⟨d, e, -, -, hread⟩ := hs.read hstored hb
    rw [Aggregator.perform, hread] at hop
    cases hop

theorem Follows.perform (hf : a.Follows b k) (op : AggregatorOp) :
    Matched b (a.perform resolver id op) (k.perform resolver id op) := by
  cases op with
  | add value => exact hf.add value
  | sub value => exact hf.sub value
  | read =>
    obtain ⟨a', hread, -, hf'⟩ := hf.read hstored hb
    refine .inl ⟨a', k, hread, ?_, hf'⟩
    simp only [Aggregator.perform, readAndMaterialize, hf.known]

theorem Spoilt.run (hs : a.Spoilt b) (ops : List AggregatorOp)
    (hrun : ops.foldlM (Aggregator.perform resolver id) a = .ok a') : a'.Spoilt b := by
  induction ops generalizing a with
  | nil =>
    cases hrun
    exact hs
  | cons op ops ih =>
    obtain ⟨a'', hop, hrun⟩ := run_cons hrun
    exact ih (hs.perform hstored hb hop) hrun

theorem Follows.run (hf : a.Follows b k) (ops : List AggregatorOp) :
    Matched b (ops.foldlM (Aggregator.perform resolver id) a)
      (ops.foldlM (Aggregator.perform resolver id) k) := by
  induction ops generalizing a k with
  | nil => exact .inl ⟨a, k, rfl, rfl, hf⟩
  | cons op ops ih =>
    rw [List.foldlM_cons, List.foldlM_cons]
    obtain ⟨a', k', ha', hk', hf'⟩ | ⟨⟨e, hk'⟩, hspoilt⟩ := hf.perform hstored hb op
    · rw [ha', hk']
      exact ih hf'
    · refine .inr ⟨⟨e, by rw [hk']; rfl⟩, fun a' ha' => ?_⟩
      -- the other aggregator goes on, but a spoilt one stays spoilt
      obtain ⟨a'', hop, ha'⟩ := run_cons ha'
      exact (hspoilt a'' hop).run hstored hb ops ha'

/-- Reading at the end makes up for not having known the value. -/
theorem Follows.run_read (hf : a.Follows b k) (ops : List AggregatorOp) (v : ℕ) :
    (∃ a', (ops ++ [AggregatorOp.read]).foldlM (Aggregator.perform resolver id) a = .ok a' ∧
        a'.value = v) ↔
      ∃ k', ops.foldlM (Aggregator.perform resolver id) k = .ok k' ∧ k'.value = v := by
  have hlast : ∀ r : Aggregator, [AggregatorOp.read].foldlM (Aggregator.perform resolver id) r =
      r.readAndMaterialize resolver id := fun r => by simp [Aggregator.perform]
  rw [List.foldlM_append]
  obtain ⟨a', k', ha', hk', hf'⟩ | ⟨⟨e, hk'⟩, hspoilt⟩ := hf.run hstored hb ops
  · obtain ⟨a'', hread, hvalue, -⟩ := hf'.read hstored hb
    simp [ha', hk', hlast, hread, hvalue, bind, Except.bind]
  · simp only [hk', reduceCtorEq, false_and, exists_false, iff_false, not_exists, not_and]
    intro a'' ha''
    cases ha' : ops.foldlM (Aggregator.perform resolver id) a with
    | error e =>
      rw [ha'] at ha''
      cases ha''
    | ok a' =>
      obtain ⟨d, e, -, -, hread⟩ := (hspoilt a' ha').read hstored hb
      rw [ha'] at ha''
      simp [bind, Except.bind, hlast, hread] at ha''

end Runs

/-! ## Which aggregators know their value -/

theorem collects_of_ne_data (hs : a.state ≠ .data) : ∃ net h, a.Collects net h := by
  cases hstate : a.state with
  | data => exact absurd hstate hs
  | positiveDelta h => exact ⟨_, h, .positive hstate⟩
  | negativeDelta h => exact ⟨_, h, .negative hstate⟩

theorem Collects.ne_data (ha : a.Collects net h) : a.state ≠ .data := by
  cases ha with
  | positive hstate | negative hstate =>
    rw [hstate]
    exact fun hdata => by cases hdata

theorem applyToStorage_state {apply : ℕ → Except PartialVMError ℕ}
    (happly : a.applyToStorage resolver id h apply = .ok a') : a'.state = .data := by
  simp only [applyToStorage] at happly
  split at happly
  · cases happly
  · cases happly
  split at happly
  · cases happly
  · generalize hresult : (do
      let _ ← addition _ h.maxPositive a.limit
      let _ ← subtraction _ h.minNegative
      apply _ : Except PartialVMError ℕ) = result at happly
    cases result with
    | error e => cases happly
    | ok v =>
      cases happly
      rfl

/-- An aggregator knows its value from the first read on. -/
theorem perform_state {op : AggregatorOp} (hstep : a.perform resolver id op = .ok a') :
    a'.state = .data ↔ a.state = .data ∨ op = .read := by
  by_cases hdata : a.state = .data
  · simp only [hdata, true_or, iff_true]
    cases op with
    | add value =>
      simp only [Aggregator.perform, Aggregator.add, hdata] at hstep
      cases hadd : addition a.value value a.limit <;> rw [hadd] at hstep <;> cases hstep
      rfl
    | sub value =>
      simp only [Aggregator.perform, Aggregator.sub, hdata] at hstep
      cases hsub : subtraction a.value value <;> rw [hsub] at hstep <;> cases hstep
      rfl
    | read =>
      simp only [Aggregator.perform, readAndMaterialize, hdata] at hstep
      cases hstep
      exact hdata
  · obtain ⟨net, h, hcollects⟩ := collects_of_ne_data hdata
    simp only [hdata, false_or]
    cases op with
    | add value =>
      exact iff_of_false ((hcollects.add value).of_ok hstep).2.ne_data fun hop => by cases hop
    | sub value =>
      exact iff_of_false ((hcollects.sub value).of_ok hstep).2.ne_data fun hop => by cases hop
    | read =>
      refine iff_of_true ?_ rfl
      cases hcollects with
      | positive hstate | negative hstate =>
        simp only [Aggregator.perform, readAndMaterialize, hstate] at hstep
        exact applyToStorage_state hstep

theorem run_state (ops : List AggregatorOp)
    (hrun : ops.foldlM (Aggregator.perform resolver id) a = .ok a') :
    a'.state = .data ↔ a.state = .data ∨ .read ∈ ops := by
  induction ops generalizing a with
  | nil =>
    cases hrun
    simp
  | cons op ops ih =>
    obtain ⟨a'', hop, hrun⟩ := run_cons hrun
    rw [ih hrun, perform_state hop, List.mem_cons, or_assoc, eq_comm (a := op)]

end Aggregator

/-! ## The three life cycles -/

namespace AggregatorData
variable {Id : Type} [DecidableEq Id] {resolver : TableResolver Id} {id : Id} {limit : ℕ}
  {hlimit : limit < 2 ^ 128} {data : AggregatorData Id} {a : Aggregator}

/-- The value under an identifier, a change counted without its sign. -/
def value (data : AggregatorData Id) (id : Id) : Option ℕ :=
  (data.aggregators id).map Aggregator.value

/-- The operations in a transaction that has not used the aggregator before. -/
def deltaMode (resolver : TableResolver Id) (id : Id) (limit : ℕ) (hlimit : limit < 2 ^ 128)
    (ops : List AggregatorOp) : Except AggregatorError (AggregatorData Id) :=
  ops.foldlM (perform resolver id limit hlimit) (empty.getAggregator id limit hlimit)

/-- The operations on an aggregator that knows its value. -/
def dataMode (resolver : TableResolver Id) (id : Id) (limit : ℕ) (hlimit : limit < 2 ^ 128)
    (value : ℕ) (ops : List AggregatorOp) : Except AggregatorError (AggregatorData Id) :=
  ops.foldlM (perform resolver id limit hlimit) (empty.put id ⟨value, .data, limit, hlimit⟩)

@[simp] theorem put_put (data : AggregatorData Id) (a : Aggregator) :
    (data.put id a).put id = data.put id := by
  funext a'
  simp [put]

@[simp] theorem aggregators_put (data : AggregatorData Id) (a : Aggregator) :
    (data.put id a).aggregators id = some a := by
  simp [put]

theorem getAggregator_put (data : AggregatorData Id) (a : Aggregator) :
    (data.put id a).getAggregator id limit hlimit = data.put id a := by
  simp [getAggregator]

/-- The transaction works on the aggregator alone. -/
theorem foldlM_perform (data : AggregatorData Id) (a : Aggregator) (ops : List AggregatorOp) :
    ops.foldlM (perform resolver id limit hlimit) (data.put id a) =
      (ops.foldlM (Aggregator.perform resolver id) a).map (data.put id) := by
  induction ops generalizing a with
  | nil => rfl
  | cons op ops ih =>
    rw [List.foldlM_cons, List.foldlM_cons]
    simp only [perform, getAggregator_put, aggregators_put]
    cases a.perform resolver id op with
    | error e => rfl
    | ok a' =>
      refine Eq.trans ?_ (ih a')
      simp only [Except.map, put_put]
      rfl

theorem intoChangeSet_put (a : Aggregator) :
    ((empty : AggregatorData Id).put id a).intoChangeSet id = some a.change := by
  simp [intoChangeSet, put, empty]

theorem exists_value_iff {r : Except AggregatorError Aggregator} {v : ℕ} :
    (∃ data, r.map ((empty : AggregatorData Id).put id) = .ok data ∧ data.value id = some v) ↔
      ∃ a, r = .ok a ∧ a.value = v := by
  cases r with
  | error e => simp [Except.map]
  | ok a => simp [Except.map, value]

theorem follows_start {b : ℕ} (hb : b ≤ limit) :
    (⟨0, .positiveDelta .new, limit, hlimit⟩ : Aggregator).Follows b ⟨b, .data, limit, hlimit⟩ where
  known := rfl
  limit_eq := rfl
  value_le := hb
  agrees := .inr ⟨0, .new, .positive rfl, by simp, by constructor <;> simp [History.new, hb]⟩

/-- Take a stored value within the limit and any operations on it. Collecting them as a change
and reading it at the end succeeds exactly when they succeed on the known value, with the same
result; the exported change then takes the stored value to that result, or is that result if it
was read on the way. If they fail on the known value then the change fails while it is
collected, or both its reading and its application fail. -/
theorem lifeCycles_agree {b : ℕ} (hb : b ≤ limit)
    (hstored : resolver id = .ok (some (serialize b))) (ops : List AggregatorOp) :
    (∀ v, (∃ data, deltaMode resolver id limit hlimit (ops ++ [.read]) = .ok data ∧
        data.value id = some v) ↔
      ∃ data, dataMode resolver id limit hlimit b ops = .ok data ∧ data.value id = some v) ∧
    (∀ data v, dataMode resolver id limit hlimit b ops = .ok data → data.value id = some v →
      ∃ data', deltaMode resolver id limit hlimit ops = .ok data' ∧
        (.read ∉ ops → ∃ d, data'.intoChangeSet id = some (.merge d) ∧ d.applyTo b = .ok v) ∧
        (.read ∈ ops → data'.intoChangeSet id = some (.write v))) ∧
    (∀ e, dataMode resolver id limit hlimit b ops = .error e →
      (∃ e', deltaMode resolver id limit hlimit ops = .error e') ∨
      ∃ data' d e', deltaMode resolver id limit hlimit ops = .ok data' ∧
        data'.intoChangeSet id = some (.merge d) ∧ d.applyTo b = .error e' ∧
        data'.perform resolver id limit hlimit .read = .error (.abort e')) := by
  have hb' : b < 2 ^ 128 := hb.trans_lt hlimit
  have hstart : (⟨0, .positiveDelta .new, limit, hlimit⟩ : Aggregator).Follows b
      ⟨b, .data, limit, hlimit⟩ := follows_start hb
  have hdelta : ∀ ops, deltaMode resolver id limit hlimit ops =
      (ops.foldlM (Aggregator.perform resolver id) ⟨0, .positiveDelta .new, limit, hlimit⟩).map
        (empty.put id) := foldlM_perform _ _
  have hdata : dataMode resolver id limit hlimit b ops =
      (ops.foldlM (Aggregator.perform resolver id) ⟨b, .data, limit, hlimit⟩).map
        (empty.put id) := foldlM_perform _ _ ops
  rw [hdelta ops, hdata]
  refine ⟨fun v => ?_, ?_⟩
  · rw [hdelta, exists_value_iff, exists_value_iff]
    exact hstart.run_read hstored hb' ops v
  obtain ⟨a, k, ha, hk, hf⟩ | ⟨⟨e, hk⟩, hspoilt⟩ := hstart.run hstored hb' ops
  · rw [ha, hk]
    refine ⟨?_, fun e he => by cases he⟩
    intro data v hd hv
    cases hd
    have hv : k.value = v := by simpa [value] using hv
    have hstate := Aggregator.run_state ops ha
    refine ⟨_, rfl, fun hread => ?_, fun hread => ?_⟩
    · have hne : a.state ≠ .data := fun h => by simpa [hread] using hstate.mp h
      obtain ⟨-, -, hle, ⟨h, -⟩ | ⟨net, h, hcollects, hvalue, hfits⟩⟩ := hf
      · exact absurd h hne
      · obtain ⟨d, hchange, -, happly⟩ := hcollects.read hstored hb'
        refine ⟨d, by rw [intoChangeSet_put, hchange], (happly v).mpr ?_⟩
        exact ⟨hfits.above, hfits.below, hv ▸ hvalue, hv ▸ hle⟩
    · have hs : a.state = .data := hstate.mpr (.inr hread)
      obtain ⟨-, -, -, ⟨-, h⟩ | ⟨net, h, hcollects, -⟩⟩ := hf
      · rw [intoChangeSet_put, Aggregator.change, hs, h, hv]
      · exact absurd hs hcollects.ne_data
  · rw [hk]
    refine ⟨fun data v hd => (by cases hd), fun e' _ => ?_⟩
    cases ha : ops.foldlM (Aggregator.perform resolver id)
        ⟨0, .positiveDelta .new, limit, hlimit⟩ with
    | error e => exact .inl ⟨e, rfl⟩
    | ok a =>
      obtain ⟨d, e, hchange, happly, hread⟩ := (hspoilt a ha).read hstored hb'
      refine .inr ⟨_, d, e, rfl, by rw [intoChangeSet_put, hchange], happly, ?_⟩
      simp only [perform, getAggregator_put, aggregators_put, Aggregator.perform, hread]
      rfl

/-- A storage that holds four everywhere. -/
def storedFour : TableResolver ℕ := fun _ => .ok (some (serialize 4))

/-- Up by three and down by five from four: the change turns negative on the way. -/
theorem lifeCycles_agree_crossing :
    ∃ (hlimit : 10 < 2 ^ 128) (data' : AggregatorData ℕ) (d : DeltaOp),
      deltaMode storedFour 0 10 hlimit [.add 3, .sub 5] = .ok data' ∧
        data'.intoChangeSet 0 = some (.merge d) ∧ d.applyTo 4 = .ok 2 := by
  have hlimit : 10 < 2 ^ 128 := by decide
  have hagree := @lifeCycles_agree ℕ _ storedFour 0 10 hlimit 4 (by decide) rfl [.add 3, .sub 5]
  obtain ⟨data', hdata', hmerge, -⟩ := hagree.2.1 _ 2 rfl rfl
  obtain ⟨d, hd⟩ := hmerge (by decide)
  exact ⟨hlimit, data', d, hdata', hd⟩

/-- An aggregator created and removed by the same transaction leaves no change. -/
theorem intoChangeSet_create_remove (hid : id ∉ data.destroyedAggregators) :
    ((data.createNewAggregator id limit hlimit).removeAggregator id).intoChangeSet id = none := by
  simp [createNewAggregator, removeAggregator, intoChangeSet, put, hid]

end AggregatorData
end Anthemius

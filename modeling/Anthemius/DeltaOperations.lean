import Anthemius.LittleEndianBytes
import Mathlib.Tactic.Common

/-!
# Aggregator deltas

Deltas are partial functions on 128-bit values: they carry the extremes seen while they
were built, and fail when an extreme leaves the range from zero to the limit. Every sum is
guarded before it is formed, so the values are plain naturals; only the limit, which bounds
every result, has to fit the word that is stored.
-/
namespace Anthemius
open LittleEndianBytes

/-- A partial error of the virtual machine: its message and abort sub-status. -/
structure PartialVMError where
  message : String
  subStatus : ℕ
  deriving DecidableEq, Repr

def eaddOverflow : ℕ := 0x020001

def esubUnderflow : ℕ := 0x020002

/-- The word width of an aggregator value, in bytes. -/
def u128Bytes : ℕ := 16

def serialize (value : ℕ) : Bytes := encode u128Bytes value

/-- `none` is the panic on a word that is not a 128-bit value. -/
def deserialize (bytes : Bytes) : Option ℕ := decode u128Bytes bytes

theorem deserialize_serialize {v : ℕ} (h : v < 2 ^ 128) : deserialize (serialize v) = some v :=
  decode_encode u128Bytes v (by simpa [u128Bytes] using h)

def addition (base value limit : ℕ) : Except PartialVMError ℕ :=
  if limit < base ∨ value > limit - base then
    .error ⟨s!"overflow when adding {value} to {base}", eaddOverflow⟩
  else .ok (base + value)

def subtraction (base value : ℕ) : Except PartialVMError ℕ :=
  if value > base then
    .error ⟨s!"underflow when subtracting {value} from {base}", esubUnderflow⟩
  else .ok (base - value)

theorem addition_eq_ok {base value limit r : ℕ} :
    addition base value limit = .ok r ↔ base + value ≤ limit ∧ r = base + value := by
  unfold addition
  split
  · simp only [reduceCtorEq, false_iff]
    omega
  · simp only [Except.ok.injEq]
    omega

theorem map_addition_eq_ok {α : Type} {base value limit : ℕ} {f : ℕ → α} {x : α} :
    (addition base value limit).map f = .ok x ↔ base + value ≤ limit ∧ x = f (base + value) := by
  unfold addition
  split
  · simp only [Except.map, reduceCtorEq, false_iff]
    omega
  · simp only [Except.map, Except.ok.injEq]
    exact ⟨fun heq => ⟨by omega, heq.symm⟩, fun heq => heq.2.symm⟩

theorem subtraction_eq_ok {base value r : ℕ} :
    subtraction base value = .ok r ↔ value ≤ base ∧ r = base - value := by
  unfold subtraction
  split
  · simp only [reduceCtorEq, false_iff]
    omega
  · simp only [Except.ok.injEq]
    omega

inductive DeltaUpdate
  | plus (value : ℕ)
  | minus (value : ℕ)
  deriving DecidableEq, Repr

structure DeltaOp where
  maxPositive : ℕ
  minNegative : ℕ
  limit : ℕ
  update : DeltaUpdate
  limit_lt : limit < 2 ^ 128
  deriving DecidableEq

namespace DeltaOp

/-- The history extremes are checked first, then the update itself is applied. -/
def applyTo (d : DeltaOp) (base : ℕ) : Except PartialVMError ℕ := do
  let _ ← addition base d.maxPositive d.limit
  let _ ← subtraction base d.minNegative
  match d.update with
  | .plus value => addition base value d.limit
  | .minus value => subtraction base value

def shiftedMaxPositiveBy (d delta : DeltaOp) : Except PartialVMError ℕ :=
  match delta.update with
  | .plus value => addition value d.maxPositive d.limit
  | .minus value => .ok ((subtraction d.maxPositive value).toOption.getD 0)

def shiftedMinNegativeBy (d delta : DeltaOp) : Except PartialVMError ℕ :=
  match delta.update with
  | .plus value => .ok ((subtraction d.minNegative value).toOption.getD 0)
  | .minus value => addition value d.minNegative d.limit

/-- The net update of a later delta on an earlier one, with the limit of the later. -/
def mergedUpdate (limit : ℕ) : DeltaUpdate → DeltaUpdate → Except PartialVMError DeltaUpdate
  | .plus prev, .plus self => (addition prev self limit).map .plus
  | .plus prev, .minus self => differentSign prev self
  | .minus prev, .plus self => differentSign self prev
  | .minus prev, .minus self => (addition prev self limit).map .minus
where
  differentSign (a b : ℕ) : Except PartialVMError DeltaUpdate :=
    if a ≥ b then (subtraction a b).map .plus else (subtraction b a).map .minus

def mergeOnto (d previous : DeltaOp) : Except PartialVMError DeltaOp := do
  let shiftedMaxPositive ← d.shiftedMaxPositiveBy previous
  let shiftedMinNegative ← d.shiftedMinNegativeBy previous
  let update ← mergedUpdate d.limit previous.update d.update
  .ok { d with
    update := update
    maxPositive := max previous.maxPositive shiftedMaxPositive
    minNegative := max previous.minNegative shiftedMinNegative }

/-- The update alone takes a base value to a result within the range. -/
def Takes (limit : ℕ) (base : ℕ) : DeltaUpdate → ℕ → Prop
  | .plus value, r => base + value ≤ limit ∧ r = base + value
  | .minus value, r => value ≤ base ∧ r = base - value

/-- Application succeeds exactly inside the range that the history and the update allow. -/
theorem applyTo_eq_ok {d : DeltaOp} {base r : ℕ} :
    d.applyTo base = .ok r ↔
      base + d.maxPositive ≤ d.limit ∧ d.minNegative ≤ base ∧ Takes d.limit base d.update r := by
  unfold applyTo
  cases ha : addition base d.maxPositive d.limit with
  | error e =>
    have hn : ¬ base + d.maxPositive ≤ d.limit := fun h => by
      rw [addition_eq_ok.mpr ⟨h, rfl⟩] at ha
      cases ha
    simp [bind, Except.bind, hn]
  | ok a =>
    have hp := (addition_eq_ok.mp ha).1
    cases hs : subtraction base d.minNegative with
    | error e =>
      have hn : ¬ d.minNegative ≤ base := fun h => by
        rw [subtraction_eq_ok.mpr ⟨h, rfl⟩] at hs
        cases hs
      simp [bind, Except.bind, hn]
    | ok b =>
      have hm := (subtraction_eq_ok.mp hs).1
      cases hu : d.update <;>
        simp [bind, Except.bind, hp, hm, addition_eq_ok, subtraction_eq_ok, Takes]

theorem applyTo_lt {d : DeltaOp} {base r : ℕ} (h : d.applyTo base = .ok r) : r < 2 ^ 128 := by
  obtain ⟨hp, -, hu⟩ := applyTo_eq_ok.mp h
  have hl := d.limit_lt
  cases hd : d.update <;> (simp only [hd, Takes] at hu; omega)

/-! ## Merging -/

section Merge
variable {d previous : DeltaOp} {base mid r : ℕ}

theorem shiftedMaxPositiveBy_ok (hprev : Takes d.limit base previous.update mid)
    (hbase : base ≤ d.limit) (hd : mid + d.maxPositive ≤ d.limit) :
    ∃ up, d.shiftedMaxPositiveBy previous = .ok up ∧ base + up ≤ d.limit := by
  unfold shiftedMaxPositiveBy
  cases hu : previous.update with
  | plus v =>
    simp only [hu, Takes] at hprev
    exact ⟨v + d.maxPositive, addition_eq_ok.mpr ⟨by omega, rfl⟩, by omega⟩
  | minus v =>
    simp only [hu, Takes] at hprev
    refine ⟨_, rfl, ?_⟩
    cases hs : subtraction d.maxPositive v with
    | error e => exact hbase
    | ok x =>
      have := (subtraction_eq_ok.mp hs).2
      change base + x ≤ d.limit
      omega

theorem shiftedMinNegativeBy_ok (hprev : Takes d.limit base previous.update mid)
    (hbase : base ≤ d.limit) (hd : d.minNegative ≤ mid) :
    ∃ down, d.shiftedMinNegativeBy previous = .ok down ∧ down ≤ base := by
  unfold shiftedMinNegativeBy
  cases hu : previous.update with
  | plus v =>
    simp only [hu, Takes] at hprev
    refine ⟨_, rfl, ?_⟩
    cases hs : subtraction d.minNegative v with
    | error e => exact Nat.zero_le base
    | ok x =>
      have := (subtraction_eq_ok.mp hs).2
      change x ≤ base
      omega
  | minus v =>
    simp only [hu, Takes] at hprev
    exact ⟨v + d.minNegative, addition_eq_ok.mpr ⟨by omega, rfl⟩, by omega⟩

theorem differentSign_ok {a b limit : ℕ} (hb : b ≤ base + a) (ha : base + a - b ≤ limit) :
    ∃ u, mergedUpdate.differentSign a b = .ok u ∧ Takes limit base u (base + a - b) := by
  unfold mergedUpdate.differentSign
  split
  · rw [subtraction_eq_ok.mpr ⟨‹_›, rfl⟩]
    exact ⟨_, rfl, by omega, by omega⟩
  · rw [subtraction_eq_ok.mpr ⟨by omega, rfl⟩]
    exact ⟨_, rfl, by omega, by omega⟩

theorem mergedUpdate_ok {limit : ℕ} {p u : DeltaUpdate} (hbase : base ≤ limit)
    (hprev : Takes limit base p mid) (hd : Takes limit mid u r) :
    ∃ merged, mergedUpdate limit p u = .ok merged ∧ Takes limit base merged r := by
  rcases p with v | v <;> rcases u with v' | v' <;> simp only [Takes] at hprev hd
  · rw [mergedUpdate, addition_eq_ok.mpr ⟨by omega, rfl⟩]
    exact ⟨_, rfl, by omega, by omega⟩
  · obtain ⟨hprev, rfl⟩ := hprev
    obtain ⟨hd, rfl⟩ := hd
    exact differentSign_ok hd (by omega)
  · obtain ⟨hprev, rfl⟩ := hprev
    obtain ⟨hd, rfl⟩ := hd
    have heq : base - v + v' = base + v' - v := by omega
    rw [heq]
    exact differentSign_ok (by omega) (by omega)
  · rw [mergedUpdate, addition_eq_ok.mpr ⟨by omega, rfl⟩]
    exact ⟨_, rfl, by omega, by omega⟩

/-- Two deltas that apply one after the other can be merged, and the merged delta does the
same, provided that they have the same limit. -/
theorem mergeOnto_applyTo (hlimit : d.limit = previous.limit)
    (hprev : previous.applyTo base = .ok mid) (hd : d.applyTo mid = .ok r) :
    ∃ merged, d.mergeOnto previous = .ok merged ∧ merged.limit = d.limit ∧
      merged.applyTo base = .ok r := by
  obtain ⟨hp₁, hp₂, hp₃⟩ := applyTo_eq_ok.mp hprev
  obtain ⟨hd₁, hd₂, hd₃⟩ := applyTo_eq_ok.mp hd
  rw [← hlimit] at hp₁ hp₃
  have hbase : base ≤ d.limit := by omega
  obtain ⟨up, hup, hup'⟩ := shiftedMaxPositiveBy_ok hp₃ hbase hd₁
  obtain ⟨down, hdown, hdown'⟩ := shiftedMinNegativeBy_ok hp₃ hbase hd₂
  obtain ⟨u, hu, hu'⟩ := mergedUpdate_ok hbase hp₃ hd₃
  refine ⟨{ d with
    update := u
    maxPositive := max previous.maxPositive up
    minNegative := max previous.minNegative down }, ?_, rfl, applyTo_eq_ok.mpr ⟨?_, ?_, hu'⟩⟩
  · rw [mergeOnto, hup, hdown, hu]
    rfl
  · dsimp only
    omega
  · dsimp only
    omega

theorem mergeOnto_eq_ok {merged : DeltaOp} (h : d.mergeOnto previous = .ok merged) :
    ∃ up down, d.shiftedMaxPositiveBy previous = .ok up ∧
      d.shiftedMinNegativeBy previous = .ok down ∧
      mergedUpdate d.limit previous.update d.update = .ok merged.update ∧
      merged.maxPositive = max previous.maxPositive up ∧
      merged.minNegative = max previous.minNegative down ∧ merged.limit = d.limit := by
  unfold mergeOnto at h
  cases hup : d.shiftedMaxPositiveBy previous with
  | error e =>
    rw [hup] at h
    cases h
  | ok up =>
    cases hdown : d.shiftedMinNegativeBy previous with
    | error e =>
      rw [hup, hdown] at h
      cases h
    | ok down =>
      cases hu : mergedUpdate d.limit previous.update d.update with
      | error e =>
        rw [hup, hdown, hu] at h
        cases h
      | ok u =>
        rw [hup, hdown, hu] at h
        cases h
        exact ⟨up, down, rfl, rfl, rfl, rfl, rfl, rfl⟩

/-- The shifted extremes bound the value between the two deltas on both sides. -/
theorem takes_of_shifted {up down : ℕ} (hup : d.shiftedMaxPositiveBy previous = .ok up)
    (hdown : d.shiftedMinNegativeBy previous = .ok down) (hup' : base + up ≤ d.limit)
    (hdown' : down ≤ base) : ∃ mid, Takes d.limit base previous.update mid ∧
      mid + d.maxPositive ≤ d.limit ∧ d.minNegative ≤ mid := by
  unfold shiftedMaxPositiveBy at hup
  unfold shiftedMinNegativeBy at hdown
  cases hu : previous.update with
  | plus v =>
    simp only [hu, Except.ok.injEq] at hup hdown
    obtain ⟨-, rfl⟩ := addition_eq_ok.mp hup
    refine ⟨base + v, ⟨by omega, rfl⟩, by omega, ?_⟩
    by_cases hv : v ≤ d.minNegative
    · rw [subtraction_eq_ok.mpr ⟨hv, rfl⟩] at hdown
      change d.minNegative - v = down at hdown
      omega
    · omega
  | minus v =>
    simp only [hu, Except.ok.injEq] at hup hdown
    obtain ⟨-, rfl⟩ := addition_eq_ok.mp hdown
    refine ⟨base - v, ⟨by omega, rfl⟩, ?_, by omega⟩
    by_cases hv : v ≤ d.maxPositive
    · rw [subtraction_eq_ok.mpr ⟨hv, rfl⟩] at hup
      change d.maxPositive - v = up at hup
      omega
    · omega

theorem takes_of_differentSign {a b limit : ℕ} {u : DeltaUpdate}
    (hbase : base ≤ limit) (h : mergedUpdate.differentSign a b = .ok u)
    (hu : Takes limit base u r) :
    b ≤ base + a ∧ r = base + a - b ∧ r ≤ limit := by
  unfold mergedUpdate.differentSign at h
  split at h
  · rw [subtraction_eq_ok.mpr ⟨‹_›, rfl⟩] at h
    cases h
    simp only [Takes] at hu
    omega
  · rw [subtraction_eq_ok.mpr ⟨by omega, rfl⟩] at h
    cases h
    simp only [Takes] at hu
    omega

theorem takes_of_mergedUpdate {limit : ℕ} {p u merged : DeltaUpdate} (hbase : base ≤ limit)
    (h : mergedUpdate limit p u = .ok merged) (hm : Takes limit base merged r)
    (hprev : Takes limit base p mid) : Takes limit mid u r := by
  rcases p with v | v <;> rcases u with v' | v' <;> rw [mergedUpdate] at h
  · obtain ⟨-, rfl⟩ := map_addition_eq_ok.mp h
    simp only [Takes] at hprev hm ⊢
    omega
  · have := takes_of_differentSign hbase h hm
    simp only [Takes] at hprev ⊢
    omega
  · have := takes_of_differentSign hbase h hm
    simp only [Takes] at hprev ⊢
    omega
  · obtain ⟨-, rfl⟩ := map_addition_eq_ok.mp h
    simp only [Takes] at hprev hm ⊢
    omega

/-- A merged delta is the composition of the two, whatever their extremes are. -/
theorem mergeOnto_applyTo_iff {merged : DeltaOp} (hlimit : d.limit = previous.limit)
    (h : d.mergeOnto previous = .ok merged) :
    merged.applyTo base = .ok r ↔
      ∃ mid, previous.applyTo base = .ok mid ∧ d.applyTo mid = .ok r := by
  constructor
  · intro hr
    obtain ⟨up, down, hup, hdown, hu, hmax, hmin, hl⟩ := mergeOnto_eq_ok h
    obtain ⟨hr₁, hr₂, hr₃⟩ := applyTo_eq_ok.mp hr
    rw [hl] at hr₁ hr₃
    have hup' : base + up ≤ d.limit := by omega
    have hdown' : down ≤ base := by omega
    obtain ⟨mid, hprev, hmid₁, hmid₂⟩ := takes_of_shifted hup hdown hup' hdown'
    refine ⟨mid, applyTo_eq_ok.mpr ⟨by omega, by omega, hlimit ▸ hprev⟩,
      applyTo_eq_ok.mpr ⟨hmid₁, hmid₂, ?_⟩⟩
    exact takes_of_mergedUpdate (by omega) hu hr₃ hprev
  · rintro ⟨mid, hprev, hd⟩
    obtain ⟨merged', h', -, hr⟩ := mergeOnto_applyTo hlimit hprev hd
    cases h.symm.trans h'
    exact hr

end Merge

def deltaAdd (v limit : ℕ) (h : limit < 2 ^ 128) : DeltaOp := ⟨v, 0, limit, .plus v, h⟩

def deltaSub (v limit : ℕ) (h : limit < 2 ^ 128) : DeltaOp := ⟨0, v, limit, .minus v, h⟩

/-- The deltas that successful merges build from single additions and subtractions. -/
inductive Built (limit : ℕ) : DeltaOp → Prop
  | add (v : ℕ) (h : limit < 2 ^ 128) : Built limit (deltaAdd v limit h)
  | sub (v : ℕ) (h : limit < 2 ^ 128) : Built limit (deltaSub v limit h)
  | merge {d previous merged : DeltaOp} (hd : Built limit d) (hprevious : Built limit previous)
      (h : d.mergeOnto previous = .ok merged) : Built limit merged

theorem Built.limit_eq {limit : ℕ} {d : DeltaOp} (h : Built limit d) : d.limit = limit := by
  induction h with
  | add | sub => rfl
  | merge _ _ h ih _ =>
    obtain ⟨-, -, -, -, -, -, -, hl⟩ := mergeOnto_eq_ok h
    exact hl.trans ih

/-- Merging is composition: a merged delta does what the two deltas do one after the other,
and deltas that cannot be merged cannot be applied one after the other to any value. -/
theorem Built.mergeOnto_composes {limit : ℕ} {d₁ d₂ : DeltaOp} (h₁ : Built limit d₁)
    (h₂ : Built limit d₂) :
    (∀ merged, d₂.mergeOnto d₁ = .ok merged → ∀ base r, merged.applyTo base = .ok r ↔
      ∃ mid, d₁.applyTo base = .ok mid ∧ d₂.applyTo mid = .ok r) ∧
    (∀ e, d₂.mergeOnto d₁ = .error e → ∀ base mid r,
      ¬ (d₁.applyTo base = .ok mid ∧ d₂.applyTo mid = .ok r)) := by
  have hlimit : d₂.limit = d₁.limit := h₂.limit_eq.trans h₁.limit_eq.symm
  refine ⟨fun merged hm base r => mergeOnto_applyTo_iff hlimit hm, ?_⟩
  rintro e he base mid r ⟨hmid, hr⟩
  obtain ⟨merged, hm, -, -⟩ := mergeOnto_applyTo hlimit hmid hr
  rw [he] at hm
  cases hm

/-- An addition and a larger subtraction with limit 100, on a value that allows both and on
one that is too small. -/
theorem mergeOnto_composes_addSub :
    ∃ merged, (deltaSub 5 100 (by decide)).mergeOnto (deltaAdd 3 100 (by decide)) = .ok merged ∧
      (∃ mid, (deltaAdd 3 100 (by decide)).applyTo 2 = .ok mid ∧
        (deltaSub 5 100 (by decide)).applyTo mid = .ok 0) ∧
      merged.applyTo 1 ≠ .ok 0 := by
  have h := (Built.mergeOnto_composes (Built.add 3 (by decide : 100 < 2 ^ 128))
    (.sub 5 (by decide))).1
  refine ⟨⟨3, 2, 100, .minus 2, by decide⟩, rfl, (h _ rfl 2 0).mp rfl, fun h1 => ?_⟩
  obtain ⟨mid, hmid, hsub⟩ := (h _ rfl 1 0).mp h1
  cases hmid
  cases hsub

end DeltaOp
end Anthemius

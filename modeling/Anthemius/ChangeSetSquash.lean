import Anthemius.CheckedLoops
import Anthemius.SequentialExecution
import Mathlib.Data.List.AList

/-!
# Squashing change sets

A session leaves writes and deltas, at most one of the two for a key. Two sessions in sequence
are squashed into one change set: first the writes of the second are put on the changes of the
first, then its deltas. Each result is shown to a checker, which may reject it.
-/
namespace Anthemius
open LittleEndianBytes CheckedLoops

abbrev BTreeMap (K V : Type) := AList fun _ : K => V

inductive SquashError
  | message (text : String)
  | bcs
  | partialVM (error : PartialVMError)
  | vmStatus (code : ℕ)
  deriving DecidableEq

/-- The two maps of a change set that are squashed key by key. -/
structure PendingChanges (K : Type) where
  deltaOps : BTreeMap K DeltaOp
  writeOps : BTreeMap K WriteOp

/-- What the checker of a change set sees. -/
structure ChangeSet (K Ev : Type) where
  writeSet : BTreeMap K WriteOp
  events : List Ev

structure ChangeSetExt (K Ev : Type) where
  changes : PendingChanges K
  events : List Ev
  checker : ChangeSet K Ev → Except SquashError Unit

/-- A delta on the bytes of a write. -/
def DeltaOp.applyToBytes (d : DeltaOp) (data : Bytes) : Except SquashError Bytes :=
  match deserialize data with
  | none => .error .bcs
  | some val => ((d.applyTo val).map serialize).mapError .partialVM

theorem DeltaOp.applyToBytes_eq_ok {d : DeltaOp} {data result : Bytes} :
    d.applyToBytes data = .ok result ↔
      ∃ v w, deserialize data = some v ∧ d.applyTo v = .ok w ∧ serialize w = result := by
  unfold applyToBytes
  cases deserialize data with
  | none => simp
  | some v => cases hd : d.applyTo v <;> simp [Except.map, Except.mapError, hd]

theorem DeltaOp.toOption_applyToBytes {d : DeltaOp} {data result : Bytes} :
    (d.applyToBytes data).toOption = some result ↔
      ∃ v w, deserialize data = some v ∧ d.applyTo v = .ok w ∧ serialize w = result := by
  rw [← applyToBytes_eq_ok]
  cases d.applyToBytes data <;> simp [Except.toOption]

namespace PendingChanges
variable {K : Type} [DecidableEq K]

/-- One round of the loop in `squash_change_set`. -/
def squashWrite (c : PendingChanges K) (entry : (_ : K) × WriteOp) :
    Except SquashError (PendingChanges K) :=
  let ⟨key, op⟩ := entry
  match c.writeOps.lookup key with
  | some r =>
    match WriteOp.squash (some r) op with
    | none => .error (.message "The given change sets cannot be squashed")
    | some (some w) => .ok { c with writeOps := c.writeOps.insert key w }
    | some none => .ok { c with writeOps := c.writeOps.erase key }
  | none => .ok ⟨c.deltaOps.erase key, c.writeOps.insert key op⟩

/-- One round of the loop in `squash_delta_change_set`. -/
def squashDelta (c : PendingChanges K) (entry : (_ : K) × DeltaOp) :
    Except SquashError (PendingChanges K) :=
  let ⟨key, op⟩ := entry
  match c.writeOps.lookup key with
  | some (.creation data) =>
    (op.applyToBytes data).map fun val =>
      { c with writeOps := c.writeOps.insert key (.creation val) }
  | some (.modification data) =>
    (op.applyToBytes data).map fun val =>
      { c with writeOps := c.writeOps.insert key (.modification val) }
  | some .deletion =>
    .error (.message "Failed to apply Aggregator delta -- value already deleted")
  | none =>
    match c.deltaOps.lookup key with
    | some previous =>
      ((op.mergeOnto previous).map fun merged =>
        { c with deltaOps := c.deltaOps.insert key merged }).mapError .partialVM
    | none => .ok { c with deltaOps := c.deltaOps.insert key op }

end PendingChanges

namespace ChangeSetExt
variable {K Ev : Type} [DecidableEq K]

/-- The new change set is checked before it is returned. -/
def checked (self : ChangeSetExt K Ev) (changes : PendingChanges K) (events : List Ev) :
    Except SquashError (ChangeSetExt K Ev) := do
  self.checker ⟨changes.writeOps, events⟩
  pure { self with changes := changes, events := events }

def squashChangeSet (self : ChangeSetExt K Ev) (other : ChangeSet K Ev) :
    Except SquashError (ChangeSetExt K Ev) := do
  let changes ← other.writeSet.entries.foldlM PendingChanges.squashWrite self.changes
  self.checked changes (self.events ++ other.events)

def squashDeltaChangeSet (self : ChangeSetExt K Ev) (other : BTreeMap K DeltaOp) :
    Except SquashError (ChangeSetExt K Ev) := do
  let changes ← other.entries.foldlM PendingChanges.squashDelta self.changes
  self.checked changes self.events

def squash (self other : ChangeSetExt K Ev) : Except SquashError (ChangeSetExt K Ev) := do
  let squashed ← self.squashChangeSet ⟨other.changes.writeOps, other.events⟩
  squashed.squashDeltaChangeSet other.changes.deltaOps

end ChangeSetExt

/-! ## What a change set does to a state -/

inductive Change
  | write (op : WriteOp)
  | delta (op : DeltaOp)
  deriving DecidableEq

/-- A creation needs an absent key, the other writes a present one. -/
def WriteOp.applyTo : WriteOp → Option Bytes → Option (Option Bytes)
  | .creation data, none => some (some data)
  | .modification data, some _ => some (some data)
  | .deletion, some _ => some none
  | _, _ => none

namespace Change

/-- The effect of what a change set holds for a key, if it can be applied. -/
def applyTo : Option Change → Option Bytes → Option (Option Bytes)
  | none, old => some old
  | some (.write op), old => op.applyTo old
  | some (.delta _), none => none
  | some (.delta op), some bytes => (op.applyToBytes bytes).toOption.map some

def squashWrite : Option Change → WriteOp → Except SquashError (Option Change)
  | some (.write r), op =>
    match WriteOp.squash (some r) op with
    | none => .error (.message "The given change sets cannot be squashed")
    | some w => .ok (w.map .write)
  | some (.delta _), op | none, op => .ok (some (.write op))

def squashDelta : Option Change → DeltaOp → Except SquashError (Option Change)
  | some (.write (.creation data)), op =>
    (op.applyToBytes data).map fun val => some (.write (.creation val))
  | some (.write (.modification data)), op =>
    (op.applyToBytes data).map fun val => some (.write (.modification val))
  | some (.write .deletion), _ =>
    .error (.message "Failed to apply Aggregator delta -- value already deleted")
  | some (.delta previous), op =>
    ((op.mergeOnto previous).map fun merged => some (.delta merged)).mapError .partialVM
  | none, op => .ok (some (.delta op))

variable {x : Option Change} {old mid new : Option Bytes}

/-- A write after a change of the same key: the two can be squashed, to the same effect. -/
theorem squashWrite_applyTo {op : WriteOp} (hx : applyTo x old = some mid)
    (hop : op.applyTo mid = some new) :
    ∃ z, squashWrite x op = .ok z ∧ applyTo z old = some new := by
  rcases x with _ | (r | d)
  · cases hx
    exact ⟨_, rfl, hop⟩
  · -- the old kind decides whether the key was there, the first write whether it is now
    cases r <;> cases old <;> cases hx <;> cases op <;> cases hop <;> exact ⟨_, rfl, rfl⟩
  · refine ⟨_, rfl, ?_⟩
    cases old with
    | none => cases hx
    | some bytes =>
      obtain ⟨val, -, rfl⟩ := Option.map_eq_some_iff.mp hx
      cases op <;> cases hop <;> rfl

theorem applyTo_delta {d : DeltaOp} : applyTo (some (.delta d)) old = some new ↔
    ∃ bytes v w, old = some bytes ∧ deserialize bytes = some v ∧ d.applyTo v = .ok w ∧
      new = some (serialize w) := by
  cases old with
  | none => simp [applyTo]
  | some bytes =>
    simp only [applyTo, Option.map_eq_some_iff, DeltaOp.toOption_applyToBytes]
    constructor
    · rintro ⟨_, ⟨v, w, hv, hw, rfl⟩, rfl⟩
      exact ⟨bytes, v, w, rfl, hv, hw, rfl⟩
    · rintro ⟨_, v, w, h, hv, hw, rfl⟩
      cases h
      exact ⟨_, ⟨v, w, hv, hw, rfl⟩, rfl⟩

/-- A delta after a change of the same key. Two deltas must have the same limit. -/
theorem squashDelta_applyTo {d : DeltaOp} (hx : applyTo x old = some mid)
    (hd : applyTo (some (.delta d)) mid = some new)
    (hlimit : ∀ previous, x = some (.delta previous) → d.limit = previous.limit) :
    ∃ z, squashDelta x d = .ok z ∧ applyTo z old = some new := by
  obtain ⟨bytes, v, w, rfl, hv, hw, rfl⟩ := applyTo_delta.mp hd
  have hbytes : d.applyToBytes bytes = .ok (serialize w) :=
    DeltaOp.applyToBytes_eq_ok.mpr ⟨v, w, hv, hw, rfl⟩
  rcases x with _ | (r | previous)
  · cases hx
    exact ⟨_, rfl, hd⟩
  · cases r <;> cases old <;> cases hx
    · exact ⟨_, by simp only [squashDelta, hbytes]; rfl, rfl⟩
    · exact ⟨_, by simp only [squashDelta, hbytes]; rfl, rfl⟩
  · -- the value in between is a word again, so the two deltas apply one after the other
    obtain ⟨first, u, m, rfl, hu, hm, h⟩ := applyTo_delta.mp hx
    cases h
    rw [deserialize_serialize (DeltaOp.applyTo_lt hm)] at hv
    cases hv
    obtain ⟨merged, hmerge, -, happly⟩ := DeltaOp.mergeOnto_applyTo (hlimit previous rfl) hm hw
    exact ⟨_, by simp only [squashDelta, hmerge]; rfl,
      applyTo_delta.mpr ⟨_, u, w, rfl, hu, happly, rfl⟩⟩

end Change

namespace PendingChanges
variable {K : Type} [DecidableEq K] {c : PendingChanges K} {key : K}

/-- What the change set holds for a key. -/
def change (c : PendingChanges K) (key : K) : Option Change :=
  match c.writeOps.lookup key with
  | some op => some (.write op)
  | none => (c.deltaOps.lookup key).map .delta

/-- No key has both a write and a delta. -/
def Separate (c : PendingChanges K) : Prop :=
  ∀ key, c.writeOps.lookup key = none ∨ c.deltaOps.lookup key = none

/-- The changes take one state to another. -/
def Applies (c : PendingChanges K) (base result : K → Option Bytes) : Prop :=
  ∀ key, Change.applyTo (c.change key) (base key) = some (result key)

theorem change_of_write {op : WriteOp} (h : c.writeOps.lookup key = some op) :
    c.change key = some (.write op) := by
  simp [change, h]

theorem change_of_delta (h : c.writeOps.lookup key = none) :
    c.change key = (c.deltaOps.lookup key).map .delta := by
  simp [change, h]

theorem delta_of_change {op : DeltaOp} (h : c.change key = some (.delta op)) :
    c.deltaOps.lookup key = some op := by
  unfold change at h
  split at h
  · cases h
  · obtain ⟨d, hd, heq⟩ := Option.map_eq_some_iff.mp h
    cases heq
    exact hd

theorem Separate.round {c' : PendingChanges K} (hc : c.Separate) (z : Option Change)
    (hwrite : ∀ other, other ≠ key → c'.writeOps.lookup other = c.writeOps.lookup other)
    (hdelta : ∀ other, other ≠ key → c'.deltaOps.lookup other = c.deltaOps.lookup other)
    (hkey : c'.writeOps.lookup key = none ∨ c'.deltaOps.lookup key = none)
    (hz : c'.change key = z) : c'.Separate ∧ c'.change = Function.update c.change key z := by
  constructor
  · intro other
    by_cases hother : other = key
    · exact hother ▸ hkey
    · rw [hwrite other hother, hdelta other hother]
      exact hc other
  · funext other
    by_cases hother : other = key
    · subst hother
      rw [Function.update_self, hz]
    · rw [Function.update_of_ne hother]
      simp only [change, hwrite other hother, hdelta other hother]

theorem Separate.setWrite (hc : c.Separate) (hdelta : c.deltaOps.lookup key = none) (op : WriteOp) :
    ({ c with writeOps := c.writeOps.insert key op } : PendingChanges K).Separate ∧
      ({ c with writeOps := c.writeOps.insert key op } : PendingChanges K).change =
        Function.update c.change key (some (.write op)) :=
  hc.round _ (fun _ hother => AList.lookup_insert_ne hother) (fun _ _ => rfl) (.inr hdelta)
    (change_of_write (AList.lookup_insert _))

theorem Separate.eraseWrite (hc : c.Separate) (hdelta : c.deltaOps.lookup key = none) :
    ({ c with writeOps := c.writeOps.erase key } : PendingChanges K).Separate ∧
      ({ c with writeOps := c.writeOps.erase key } : PendingChanges K).change =
        Function.update c.change key none :=
  hc.round _ (fun _ hother => AList.lookup_erase_ne hother) (fun _ _ => rfl) (.inr hdelta)
    (by rw [change_of_delta (AList.lookup_erase ..)]; simp [hdelta])

theorem Separate.setDelta (hc : c.Separate) (hwrite : c.writeOps.lookup key = none) (op : DeltaOp) :
    ({ c with deltaOps := c.deltaOps.insert key op } : PendingChanges K).Separate ∧
      ({ c with deltaOps := c.deltaOps.insert key op } : PendingChanges K).change =
        Function.update c.change key (some (.delta op)) :=
  hc.round _ (fun _ _ => rfl) (fun _ hother => AList.lookup_insert_ne hother) (.inl hwrite)
    (by simp [change, hwrite])

/-- A write takes the place of a delta. -/
theorem Separate.replace (hc : c.Separate) (op : WriteOp) :
    (⟨c.deltaOps.erase key, c.writeOps.insert key op⟩ : PendingChanges K).Separate ∧
      (⟨c.deltaOps.erase key, c.writeOps.insert key op⟩ : PendingChanges K).change =
        Function.update c.change key (some (.write op)) :=
  hc.round _ (fun _ hother => AList.lookup_insert_ne hother)
    (fun _ hother => AList.lookup_erase_ne hother) (.inr (AList.lookup_erase ..))
    (change_of_write (AList.lookup_insert _))

theorem Separate.delta_eq_none (hc : c.Separate) {op : WriteOp}
    (h : c.writeOps.lookup key = some op) : c.deltaOps.lookup key = none :=
  (hc key).resolve_left fun hnone => by
    rw [h] at hnone
    cases hnone

theorem squashWrite_round (c : PendingChanges K) (key : K) (op : WriteOp) (z : Option Change)
    (hc : c.Separate) (hz : Change.squashWrite (c.change key) op = .ok z) :
    ∃ c', c.squashWrite ⟨key, op⟩ = .ok c' ∧ c'.Separate ∧
      c'.change = Function.update c.change key z := by
  cases hlookup : c.writeOps.lookup key with
  | none =>
    have hz : z = some (.write op) := by
      rw [change_of_delta hlookup] at hz
      cases hdelta : c.deltaOps.lookup key <;> rw [hdelta] at hz <;> cases hz <;> rfl
    rw [hz]
    exact ⟨⟨c.deltaOps.erase key, c.writeOps.insert key op⟩,
      by simp only [squashWrite, hlookup], hc.replace op⟩
  | some r =>
    have hnone := hc.delta_eq_none hlookup
    rw [change_of_write hlookup, Change.squashWrite] at hz
    cases hsquash : WriteOp.squash (some r) op with
    | none =>
      rw [hsquash] at hz
      cases hz
    | some w =>
      rw [hsquash] at hz
      cases hz
      cases w with
      | none =>
        exact ⟨{ c with writeOps := c.writeOps.erase key },
          by simp only [squashWrite, hlookup, hsquash], hc.eraseWrite hnone⟩
      | some w =>
        exact ⟨{ c with writeOps := c.writeOps.insert key w },
          by simp only [squashWrite, hlookup, hsquash], hc.setWrite hnone w⟩

theorem squashDelta_round (c : PendingChanges K) (key : K) (op : DeltaOp) (z : Option Change)
    (hc : c.Separate) (hz : Change.squashDelta (c.change key) op = .ok z) :
    ∃ c', c.squashDelta ⟨key, op⟩ = .ok c' ∧ c'.Separate ∧
      c'.change = Function.update c.change key z := by
  cases hlookup : c.writeOps.lookup key with
  | none =>
    rw [change_of_delta hlookup] at hz
    cases hdelta : c.deltaOps.lookup key with
    | none =>
      rw [hdelta] at hz
      cases hz
      exact ⟨{ c with deltaOps := c.deltaOps.insert key op },
        by simp only [squashDelta, hlookup, hdelta], hc.setDelta hlookup op⟩
    | some previous =>
      rw [hdelta, Option.map_some, Change.squashDelta] at hz
      cases hmerge : op.mergeOnto previous with
      | error e =>
        rw [hmerge] at hz
        cases hz
      | ok merged =>
        rw [hmerge] at hz
        cases hz
        refine ⟨{ c with deltaOps := c.deltaOps.insert key merged }, ?_, hc.setDelta hlookup merged⟩
        simp only [squashDelta, hlookup, hdelta, hmerge]
        rfl
  | some r =>
    have hnone := hc.delta_eq_none hlookup
    rw [change_of_write hlookup] at hz
    cases r with
    | deletion => cases hz
    | creation data | modification data =>
      simp only [Change.squashDelta] at hz
      cases hdata : op.applyToBytes data with
      | error e =>
        rw [hdata] at hz
        cases hz
      | ok val =>
        rw [hdata] at hz
        cases hz
        refine ⟨_, ?_, hc.setWrite hnone _⟩
        simp only [squashDelta, hlookup, hdata]
        rfl

end PendingChanges

/-! ## Sequential composition -/

namespace ChangeSetExt
variable {K Ev : Type} [DecidableEq K] {a b : ChangeSetExt K Ev}
  {base mid result : K → Option Bytes}

/-- What `a` and then `b` do to each key, the loops do in two rounds. -/
theorem loops_apply (ha : a.changes.Separate) (hb : b.changes.Separate)
    (hbase : a.changes.Applies base mid) (hmid : b.changes.Applies mid result)
    (hlimit : ∀ key d d', a.changes.deltaOps.lookup key = some d →
      b.changes.deltaOps.lookup key = some d' → d'.limit = d.limit) :
    ∃ c c', b.changes.writeOps.entries.foldlM PendingChanges.squashWrite a.changes = .ok c ∧
      b.changes.deltaOps.entries.foldlM PendingChanges.squashDelta c = .ok c' ∧
      c'.Separate ∧ c'.Applies base result := by
  have hkey : ∀ key, ∃ y z,
      (b.changes.writeOps.lookup key).elim (a.changes.change key = y)
        (fun op => Change.squashWrite (a.changes.change key) op = .ok y) ∧
      (b.changes.deltaOps.lookup key).elim (y = z) (fun op => Change.squashDelta y op = .ok z) ∧
      Change.applyTo z (base key) = some (result key) := by
    intro key
    have hx := hbase key
    have hy := hmid key
    cases hwrite : b.changes.writeOps.lookup key with
    | some op =>
      rw [PendingChanges.change_of_write hwrite] at hy
      obtain ⟨y, hy, happly⟩ := Change.squashWrite_applyTo hx hy
      refine ⟨y, y, hy, ?_, happly⟩
      rw [hb.delta_eq_none hwrite]
      rfl
    | none =>
      rw [PendingChanges.change_of_delta hwrite] at hy
      refine ⟨a.changes.change key, ?_⟩
      cases hdelta : b.changes.deltaOps.lookup key with
      | none =>
        rw [hdelta] at hy
        exact ⟨_, rfl, rfl, hx.trans hy⟩
      | some op =>
        rw [hdelta] at hy
        obtain ⟨z, hz, happly⟩ := Change.squashDelta_applyTo hx hy fun previous hprevious =>
          hlimit key previous op (PendingChanges.delta_of_change hprevious) hdelta
        exact ⟨z, rfl, hz, happly⟩
  choose y z hy hz happly using hkey
  obtain ⟨c, hc, hsep, hview⟩ := foldlM_entries PendingChanges.squashWrite_round
    b.changes.writeOps.entries b.changes.writeOps.nodupKeys ha y hy
  obtain ⟨c', hc', hsep', hview'⟩ := foldlM_entries PendingChanges.squashDelta_round
    b.changes.deltaOps.entries b.changes.deltaOps.nodupKeys hsep z (by rw [hview]; exact hz)
  exact ⟨c, c', hc, hc', hsep', fun key => by rw [hview']; exact happly key⟩

/-- If two change sets can be applied one after the other and the deltas of a key have one limit,
both loops succeed, and their result does what the two do in turn. The squash returns it if the
checker accepts the changes after each of the loops, and fails only where the checker does. -/
theorem squash_applies (ha : a.changes.Separate) (hb : b.changes.Separate)
    (hbase : a.changes.Applies base mid) (hmid : b.changes.Applies mid result)
    (hlimit : ∀ key d d', a.changes.deltaOps.lookup key = some d →
      b.changes.deltaOps.lookup key = some d' → d'.limit = d.limit) :
    ∃ written squashed,
      b.changes.writeOps.entries.foldlM PendingChanges.squashWrite a.changes = .ok written ∧
      b.changes.deltaOps.entries.foldlM PendingChanges.squashDelta written = .ok squashed ∧
      squashed.Separate ∧ squashed.Applies base result ∧
      a.squash b = (do
        a.checker ⟨written.writeOps, a.events ++ b.events⟩
        a.checker ⟨squashed.writeOps, a.events ++ b.events⟩
        pure { a with changes := squashed, events := a.events ++ b.events }) := by
  obtain ⟨written, squashed, hwritten, hsquashed, hsep, happly⟩ :=
    loops_apply ha hb hbase hmid hlimit
  refine ⟨written, squashed, hwritten, hsquashed, hsep, happly, ?_⟩
  simp only [squash, squashChangeSet, squashDeltaChangeSet, checked, hwritten]
  cases hfirst : a.checker ⟨written.writeOps, a.events ++ b.events⟩ with
  | error e => simp [bind, Except.bind, hfirst]
  | ok u => simp [bind, Except.bind, pure, Except.pure, hfirst, hsquashed]

/-- One key with one delta, and a checker that accepts everything. -/
def ofDelta (d : DeltaOp) : ChangeSetExt Unit Unit :=
  ⟨⟨AList.singleton () d, ∅⟩, [], fun _ => .ok ()⟩

theorem separate_ofDelta (d : DeltaOp) : (ofDelta d).changes.Separate := fun _ => .inl rfl

theorem applies_ofDelta {d : DeltaOp} {v w : ℕ} (hv : v < 2 ^ 128) (h : d.applyTo v = .ok w) :
    (ofDelta d).changes.Applies (fun _ => some (serialize v)) fun _ => some (serialize w) :=
  fun _ => Change.applyTo_delta.mpr ⟨_, v, w, rfl, deserialize_serialize hv, h, rfl⟩

/-- Two deltas with one limit, up by four and down by six from five. -/
theorem squash_applies_deltas : ∃ (d d' : DeltaOp) (s : ChangeSetExt Unit Unit),
    (ofDelta d).squash (ofDelta d') = .ok s ∧
      s.changes.Applies (fun _ => some (serialize 5)) fun _ => some (serialize 3) := by
  let d := DeltaOp.deltaAdd 4 10 (by decide)
  let d' := DeltaOp.deltaSub 6 10 (by decide)
  obtain ⟨written, squashed, -, -, -, happly, hsquash⟩ :=
    squash_applies (separate_ofDelta d) (separate_ofDelta d')
      (applies_ofDelta (show 5 < 2 ^ 128 by decide) (show d.applyTo 5 = .ok 9 from rfl))
      (applies_ofDelta (show 9 < 2 ^ 128 by decide) (show d'.applyTo 9 = .ok 3 from rfl))
      (fun key _ _ hd hd' => by cases hd; cases hd'; rfl)
  exact ⟨d, d', _, hsquash, happly⟩

/-- Two deltas with different limits: squashed, a high that was within the first limit is held
against the second, or the merge itself is refused. And a checker may reject what two change
sets that it accepted have become. -/
theorem squash_fails :
    (∃ (d d' : DeltaOp) (s : ChangeSetExt Unit Unit),
      (ofDelta d).changes.Applies (fun _ => some (serialize 3)) (fun _ => some (serialize 4)) ∧
      (ofDelta d').changes.Applies (fun _ => some (serialize 4)) (fun _ => some (serialize 5)) ∧
      (ofDelta d).squash (ofDelta d') = .ok s ∧
      ∀ result, ¬ s.changes.Applies (fun _ => some (serialize 3)) result) ∧
    (∃ (d d' : DeltaOp) (e : SquashError),
      (ofDelta d).changes.Applies (fun _ => some (serialize 50)) (fun _ => some (serialize 5)) ∧
      (ofDelta d').changes.Applies (fun _ => some (serialize 5)) (fun _ => some (serialize 4)) ∧
      (ofDelta d).squash (ofDelta d') = .error e) ∧
    ∃ (a b : ChangeSetExt Unit Unit) (e : SquashError),
      a.checker ⟨a.changes.writeOps, a.events⟩ = .ok () ∧
      a.checker ⟨b.changes.writeOps, b.events⟩ = .ok () ∧
      a.changes.Applies (fun _ => none) (fun _ => none) ∧
      b.changes.Applies (fun _ => none) (fun _ => none) ∧ a.squash b = .error e := by
  refine ⟨?_, ?_, ?_⟩
  · let d : DeltaOp := ⟨90, 0, 100, .plus 1, by decide⟩
    let d' : DeltaOp := .deltaAdd 1 50 (by decide)
    let merged : DeltaOp := ⟨90, 0, 50, .plus 2, by decide⟩
    refine ⟨d, d', ofDelta merged, applies_ofDelta (by decide) rfl,
      applies_ofDelta (by decide) rfl, rfl, fun result happly => ?_⟩
    obtain ⟨_, v, w, hbytes, hv, hw, -⟩ := Change.applyTo_delta.mp (happly ())
    cases hbytes
    rw [deserialize_serialize (by decide)] at hv
    cases hv
    cases hw
  · let d : DeltaOp := .deltaSub 45 100 (by decide)
    let d' : DeltaOp := .deltaSub 1 10 (by decide)
    exact ⟨d, d', _, applies_ofDelta (by decide) rfl, applies_ofDelta (by decide) rfl, rfl⟩
  · -- at most one event is allowed
    let checker : ChangeSet Unit Unit → Except SquashError Unit := fun cs =>
      if cs.events.length ≤ 1 then .ok () else .error (.vmStatus 0)
    exact ⟨⟨⟨∅, ∅⟩, [()], checker⟩, ⟨⟨∅, ∅⟩, [()], checker⟩, _, rfl, rfl, fun _ => rfl,
      fun _ => rfl, rfl⟩

end ChangeSetExt
end Anthemius

import Anthemius.StateDeltas
import Mathlib.Data.List.Chain

/-!
# The buffered state

Updates up to the latest checkpoint wait until there are enough of them and are then sent to the
committer of snapshots. What comes after the checkpoint is kept until the next one.
-/
namespace Anthemius.StateStore

open EntryMaps Outcomes

variable {T K V H : Type} [DecidableEq K]

/-- `sent` lists what was sent to the committer, the last one at the end. -/
structure BufferedState (T K V : Type) where
  stateUntilCheckpoint : Option (StateDelta T K V)
  stateAfterCheckpoint : StateDelta T K V
  targetItems : ℕ
  sent : List (StateDelta T K V)

inductive UpdateError
  | baseVersionDecreases
  | baseVersionChanges
  deriving DecidableEq

def targetSnapshotIntervalInVersion : ℕ := 20000

namespace BufferedState

def new (stateAfterCheckpoint : StateDelta T K V) (targetItems : ℕ) : BufferedState T K V where
  stateUntilCheckpoint := none
  stateAfterCheckpoint := stateAfterCheckpoint
  targetItems := targetItems
  sent := []

/-- There are enough updates, or enough versions between the two ends, or the call waits for the
commit. -/
def takeOutToCommit (s : BufferedState T K V) (syncCommit : Bool) (delta : StateDelta T K V) :
    Outcome UpdateError Bool :=
  if syncCommit ∨ s.targetItems ≤ delta.updatesSinceBase.length then pure true
  else do
    assert (nextVersion delta.baseVersion ≤ nextVersion delta.currentVersion)
    pure (targetSnapshotIntervalInVersion ≤
      nextVersion delta.currentVersion - nextVersion delta.baseVersion)

def maybeCommit (s : BufferedState T K V) (syncCommit : Bool) :
    Outcome UpdateError (BufferedState T K V) :=
  match s.stateUntilCheckpoint with
  | none => pure s
  | some delta => do
    let takeOut ← s.takeOutToCommit syncCommit delta
    pure (if takeOut then { s with stateUntilCheckpoint := none, sent := s.sent ++ [delta] } else s)

def syncCommit (s : BufferedState T K V) : Outcome UpdateError (BufferedState T K V) :=
  s.maybeCommit true

/-- What is pending up to the latest checkpoint and then up to the next one. -/
def mergeUntil [DecidableEq H] (rootHash : T → H) (s : BufferedState T K V)
    (delta : StateDelta T K V) : Outcome UpdateError (StateDelta T K V) :=
  match s.stateUntilCheckpoint with
  | some pending => expect (pending.merge rootHash delta)
  | none => pure delta

def update [DecidableEq H] (rootHash : T → H) (s : BufferedState T K V)
    (updatesUntilNextCheckpointSinceCurrent : Option (List (K × Option V)))
    (newStateAfterCheckpoint : StateDelta T K V) (syncCommit : Bool) :
    Outcome UpdateError (BufferedState T K V) := do
  ensure (nextVersion s.stateAfterCheckpoint.baseVersion ≤
    nextVersion newStateAfterCheckpoint.baseVersion) .baseVersionDecreases
  match updatesUntilNextCheckpointSinceCurrent with
  | some updates =>
    let delta ← s.mergeUntil rootHash { s.stateAfterCheckpoint with
      updatesSinceBase := extend s.stateAfterCheckpoint.updatesSinceBase updates
      current := newStateAfterCheckpoint.base
      currentVersion := newStateAfterCheckpoint.baseVersion }
    { s with
      stateUntilCheckpoint := some delta
      stateAfterCheckpoint := newStateAfterCheckpoint }.maybeCommit syncCommit
  | none =>
    ensure (newStateAfterCheckpoint.baseVersion = s.stateAfterCheckpoint.baseVersion)
      .baseVersionChanges
    { s with stateAfterCheckpoint := newStateAfterCheckpoint }.maybeCommit syncCommit

/-! ## What is sent -/

/-- The version up to which everything was sent. -/
def sentVersion (initial : StateDelta T K V) (s : BufferedState T K V) : Option ℕ :=
  match s.sent.getLast? with
  | some delta => delta.currentVersion
  | none => initial.baseVersion

/-- A delta between two versions of the chain, not empty. -/
structure Spans (chain : StateChain K V H) (rootHash : T → H) (content : T → K → Option V)
    (delta : StateDelta T K V) : Prop where
  base : IsState chain rootHash content delta.base (nextVersion delta.baseVersion)
  current : IsState chain rootHash content delta.current (nextVersion delta.currentVersion)
  lt : nextVersion delta.baseVersion < nextVersion delta.currentVersion
  applies : delta.Applies content
  distinct : Distinct delta.updatesSinceBase

/-- What every call keeps. -/
structure Tracks (chain : StateChain K V H) (rootHash : T → H) (content : T → K → Option V)
    (initial : StateDelta T K V) (s : BufferedState T K V) : Prop where
  after : IsDelta chain rootHash content s.stateAfterCheckpoint
  ready : ∀ delta, s.stateUntilCheckpoint = some delta → Spans chain rootHash content delta ∧
    delta.baseVersion = s.sentVersion initial ∧
    delta.currentVersion = s.stateAfterCheckpoint.baseVersion
  nothing : s.stateUntilCheckpoint = none →
    s.stateAfterCheckpoint.baseVersion = s.sentVersion initial
  sent : ∀ delta ∈ s.sent, Spans chain rootHash content delta
  first : ∀ delta, s.sent.head? = some delta → delta.baseVersion = initial.baseVersion
  consecutive : s.sent.IsChain fun delta next => next.baseVersion = delta.currentVersion

section Calls
variable {chain : StateChain K V H} {rootHash : T → H} {content : T → K → Option V}
  {initial : StateDelta T K V} {s s' : BufferedState T K V}

/-- The data up to the latest checkpoint is sent. -/
theorem Tracks.send (h : s.Tracks chain rootHash content initial) {delta : StateDelta T K V}
    (hready : s.stateUntilCheckpoint = some delta) :
    { s with stateUntilCheckpoint := none, sent := s.sent ++ [delta] }.Tracks chain rootHash content
      initial := by
  obtain ⟨hspans, hbase, hcurrent⟩ := h.ready delta hready
  refine ⟨h.after, fun other hother => (by cases hother), fun _ => ?_, fun other hother => ?_,
    fun other hother => ?_, ?_⟩
  · rw [sentVersion, List.getLast?_concat]
    exact hcurrent.symm
  · obtain hother | hother := List.mem_append.mp hother
    · exact h.sent other hother
    · exact List.mem_singleton.mp hother ▸ hspans
  · dsimp only at hother
    rcases hsent : s.sent with _ | ⟨first, rest⟩
    · rw [hsent] at hother
      cases hother
      rw [hbase, sentVersion, hsent]
      rfl
    · rw [hsent] at hother
      exact h.first other (hsent ▸ hother)
  · refine List.isChain_append.mpr ⟨h.consecutive, List.isChain_singleton _, ?_⟩
    intro last hlast next hnext
    cases hnext
    rw [hbase, sentVersion, hlast]

theorem Tracks.maybeCommit (h : s.Tracks chain rootHash content initial) (syncCommit : Bool) :
    ∃ s', Returns (s.maybeCommit syncCommit) s' ∧ s'.Tracks chain rootHash content initial ∧
      s'.stateAfterCheckpoint = s.stateAfterCheckpoint ∧
      (syncCommit = true → s'.stateUntilCheckpoint = none) := by
  unfold BufferedState.maybeCommit
  rcases hready : s.stateUntilCheckpoint with _ | delta
  · exact ⟨s, returns_pure.mpr rfl, h, rfl, fun _ => hready⟩
  · obtain ⟨hspans, -⟩ := h.ready delta hready
    obtain ⟨takeOut, htakeOut, hsync⟩ : ∃ takeOut,
        Returns (s.takeOutToCommit syncCommit delta) takeOut ∧
          (syncCommit = true → takeOut = true) := by
      unfold takeOutToCommit
      split
      next => exact ⟨true, returns_pure.mpr rfl, fun _ => rfl⟩
      next hwait =>
        exact ⟨_, returns_bind.mpr ⟨(), returns_assert.mpr hspans.lt.le, returns_pure.mpr rfl⟩,
          fun hsync => absurd (Or.inl hsync) hwait⟩
    refine ⟨_, returns_bind.mpr ⟨takeOut, htakeOut, returns_pure.mpr rfl⟩, ?_⟩
    cases takeOut with
    | true => exact ⟨h.send hready, rfl, fun _ => rfl⟩
    | false => exact ⟨h, rfl, fun htrue => by cases hsync htrue⟩

/-- A call at which the chain has gone on. The updates are given if the checkpoint has advanced. -/
structure Extends (chain : StateChain K V H) (rootHash : T → H) (content : T → K → Option V)
    (s : BufferedState T K V) (updates : Option (List (K × Option V)))
    (delta : StateDelta T K V) : Prop where
  isDelta : IsDelta chain rootHash content delta
  le : nextVersion s.stateAfterCheckpoint.currentVersion ≤ nextVersion delta.currentVersion
  given : ∀ entries, updates = some entries →
    delta.baseVersion ≠ s.stateAfterCheckpoint.baseVersion ∧
      IsChanges chain entries (nextVersion s.stateAfterCheckpoint.currentVersion)
        (nextVersion delta.baseVersion)
  missing : updates = none → delta.baseVersion = s.stateAfterCheckpoint.baseVersion

theorem Extends.base_le (hs : IsDelta chain rootHash content s.stateAfterCheckpoint)
    {updates : Option (List (K × Option V))} {delta : StateDelta T K V}
    (h : s.Extends chain rootHash content updates delta) :
    nextVersion s.stateAfterCheckpoint.baseVersion ≤ nextVersion delta.baseVersion := by
  by_contra hlt
  refine h.isDelta.latest _ (Nat.not_le.mp hlt) (hs.le.trans h.le) hs.checkpoint

theorem Extends.current_lt (hs : IsDelta chain rootHash content s.stateAfterCheckpoint)
    {updates : Option (List (K × Option V))} {delta : StateDelta T K V}
    (h : s.Extends chain rootHash content updates delta)
    (hne : delta.baseVersion ≠ s.stateAfterCheckpoint.baseVersion) :
    nextVersion s.stateAfterCheckpoint.currentVersion < nextVersion delta.baseVersion := by
  by_contra hle
  have hbase := h.base_le hs
  have hlt : nextVersion s.stateAfterCheckpoint.baseVersion < nextVersion delta.baseVersion :=
    lt_of_le_of_ne hbase fun heq => hne (nextVersion_injective heq.symm)
  exact hs.latest _ hlt (Nat.not_lt.mp hle) h.isDelta.checkpoint

/-- The kept updates and the given ones lead to the next checkpoint. -/
theorem Extends.spans (hs : IsDelta chain rootHash content s.stateAfterCheckpoint)
    {entries : List (K × Option V)} {delta : StateDelta T K V}
    (h : s.Extends chain rootHash content (some entries) delta) :
    Spans chain rootHash content { s.stateAfterCheckpoint with
      updatesSinceBase := extend s.stateAfterCheckpoint.updatesSinceBase entries
      current := delta.base
      currentVersion := delta.baseVersion } := by
  obtain ⟨hne, hentries⟩ := h.given entries rfl
  have hlt := h.current_lt hs hne
  refine ⟨hs.base, h.isDelta.base, hs.le.trans_lt hlt, ?_, hs.updates.distinct.extend⟩
  calc overlay (extend s.stateAfterCheckpoint.updatesSinceBase entries)
        (content s.stateAfterCheckpoint.base)
      = applyAll entries (content s.stateAfterCheckpoint.current) := by
        rw [overlay_extend, hs.applies]
    _ = overlay entries (chain.state (nextVersion s.stateAfterCheckpoint.currentVersion)) := by
        rw [hentries.distinct.applyAll_eq, hs.current.content]
    _ = content delta.base := by rw [hentries.overlay_eq hlt.le, h.isDelta.base.content]

theorem Spans.merge [DecidableEq H] {pending delta : StateDelta T K V}
    (hpending : Spans chain rootHash content pending) (hdelta : Spans chain rootHash content delta)
    (hmeet : delta.baseVersion = pending.currentVersion) :
    ∃ merged, pending.merge rootHash delta = some merged ∧ Spans chain rootHash content merged ∧
      merged.baseVersion = pending.baseVersion ∧ merged.currentVersion = delta.currentVersion := by
  have hroot : rootHash pending.current = rootHash delta.base := by
    rw [hpending.current.root, hdelta.base.root, hmeet]
  refine ⟨_, if_pos ⟨hmeet, hroot⟩, ⟨hpending.base, hdelta.current, ?_, ?_, ?_⟩, rfl, rfl⟩
  · exact hpending.lt.trans (hmeet ▸ hdelta.lt)
  · calc overlay (extend pending.updatesSinceBase delta.updatesSinceBase) (content pending.base)
        = applyAll delta.updatesSinceBase (content pending.current) := by
          rw [overlay_extend, hpending.applies]
      _ = overlay delta.updatesSinceBase (content delta.base) := by
          rw [hdelta.distinct.applyAll_eq, hpending.current.content, hdelta.base.content, hmeet]
      _ = content delta.current := hdelta.applies
  · exact hpending.distinct.extend

theorem Tracks.mergeUntil [DecidableEq H] (h : s.Tracks chain rootHash content initial)
    {delta : StateDelta T K V} (hdelta : Spans chain rootHash content delta)
    (hbase : delta.baseVersion = s.stateAfterCheckpoint.baseVersion) :
    ∃ merged, Returns (s.mergeUntil rootHash delta) merged ∧ Spans chain rootHash content merged ∧
      merged.baseVersion = s.sentVersion initial ∧
      merged.currentVersion = delta.currentVersion := by
  unfold BufferedState.mergeUntil
  rcases hready : s.stateUntilCheckpoint with _ | pending
  · exact ⟨delta, returns_pure.mpr rfl, hdelta, hbase.trans (h.nothing hready), rfl⟩
  · obtain ⟨hpending, hsent, hcurrent⟩ := h.ready pending hready
    obtain ⟨merged, hmerge, hmerged, hfirst, hlast⟩ :=
      hpending.merge hdelta (hbase.trans hcurrent.symm)
    exact ⟨merged, returns_expect.mpr hmerge, hmerged, hfirst.trans hsent, hlast⟩

theorem Tracks.update [DecidableEq H] (h : s.Tracks chain rootHash content initial)
    {updates : Option (List (K × Option V))} {delta : StateDelta T K V}
    (hextends : s.Extends chain rootHash content updates delta) (syncCommit : Bool) :
    ∃ s', Returns (s.update rootHash updates delta syncCommit) s' ∧
      s'.Tracks chain rootHash content initial ∧ s'.stateAfterCheckpoint = delta ∧
      (syncCommit = true → s'.stateUntilCheckpoint = none) := by
  have hle := hextends.base_le h.after
  cases updates with
  | some entries =>
    obtain ⟨merged, hmerge, hmerged, hbase, hcurrent⟩ :=
      h.mergeUntil (hextends.spans h.after) rfl
    have hnext : Tracks chain rootHash content initial
        { s with stateUntilCheckpoint := some merged, stateAfterCheckpoint := delta } := by
      refine ⟨hextends.isDelta, ?_, fun hnone => (by cases hnone), h.sent, h.first, h.consecutive⟩
      rintro other ⟨⟩
      exact ⟨hmerged, hbase, hcurrent⟩
    obtain ⟨s', hcommit, hs', hafter, hsync⟩ := hnext.maybeCommit syncCommit
    exact ⟨s', returns_bind.mpr ⟨(), returns_ensure.mpr hle, returns_bind.mpr
      ⟨merged, hmerge, hcommit⟩⟩, hs', hafter, hsync⟩
  | none =>
    have hsame := hextends.missing rfl
    have hnext : Tracks chain rootHash content initial
        { s with stateAfterCheckpoint := delta } := by
      refine ⟨hextends.isDelta, fun pending hpending => ?_, fun hnone => ?_, h.sent, h.first,
        h.consecutive⟩
      · obtain ⟨hspans, hbase, hcurrent⟩ := h.ready pending hpending
        exact ⟨hspans, hbase, hcurrent.trans hsame.symm⟩
      · exact hsame.trans (h.nothing hnone)
    obtain ⟨s', hcommit, hs', hafter, hsync⟩ := hnext.maybeCommit syncCommit
    exact ⟨s', returns_bind.mpr ⟨(), returns_ensure.mpr hle, returns_bind.mpr
      ⟨(), returns_ensure.mpr hsame, hcommit⟩⟩, hs', hafter, hsync⟩

theorem Tracks.new (h : IsDelta chain rootHash content initial) (targetItems : ℕ) :
    (new initial targetItems).Tracks chain rootHash content initial where
  after := h
  ready _ hready := by cases hready
  nothing _ := rfl
  sent _ hsent := absurd hsent List.not_mem_nil
  first _ hfirst := by cases hfirst
  consecutive := List.isChain_nil

end Calls

/-! ## Runs -/

inductive Call (T K V : Type)
  | update (updates : Option (List (K × Option V))) (delta : StateDelta T K V) (syncCommit : Bool)
  | syncCommit

/-- The caller waits until everything was committed. -/
def Call.sync : Call T K V → Bool
  | .update _ _ sync => sync
  | .syncCommit => true

def call [DecidableEq H] (rootHash : T → H) (s : BufferedState T K V) :
    Call T K V → Outcome UpdateError (BufferedState T K V)
  | .update updates delta syncCommit => s.update rootHash updates delta syncCommit
  | .syncCommit => s.syncCommit

def Legal (chain : StateChain K V H) (rootHash : T → H) (content : T → K → Option V)
    (s : BufferedState T K V) : Call T K V → Prop
  | .update updates delta _ => s.Extends chain rootHash content updates delta
  | .syncCommit => True

section Runs
variable [DecidableEq H]

inductive Run (chain : StateChain K V H) (rootHash : T → H) (content : T → K → Option V)
    (initial : StateDelta T K V) (targetItems : ℕ) : BufferedState T K V → Prop
  | new : Run chain rootHash content initial targetItems (new initial targetItems)
  | call {s s' : BufferedState T K V} (c : Call T K V)
      (hs : Run chain rootHash content initial targetItems s)
      (hlegal : s.Legal chain rootHash content c) (h : Returns (s.call rootHash c) s') :
      Run chain rootHash content initial targetItems s'

variable {chain : StateChain K V H} {rootHash : T → H} {content : T → K → Option V}
  {initial : StateDelta T K V} {s : BufferedState T K V}

theorem Tracks.call (h : s.Tracks chain rootHash content initial) {c : Call T K V}
    (hlegal : s.Legal chain rootHash content c) :
    ∃ s', Returns (s.call rootHash c) s' ∧ s'.Tracks chain rootHash content initial ∧
      (c.sync = true → s'.stateUntilCheckpoint = none) := by
  cases c with
  | update updates delta syncCommit =>
    obtain ⟨s', hcall, hs', -, hsync⟩ := h.update hlegal syncCommit
    exact ⟨s', hcall, hs', hsync⟩
  | syncCommit =>
    obtain ⟨s', hcall, hs', -, hsync⟩ := h.maybeCommit true
    exact ⟨s', hcall, hs', hsync⟩

theorem Run.tracks (hinitial : IsDelta chain rootHash content initial) {targetItems : ℕ}
    (hs : Run chain rootHash content initial targetItems s) :
    s.Tracks chain rootHash content initial := by
  induction hs with
  | new => exact Tracks.new hinitial targetItems
  | call c hs hlegal hcall ih =>
    obtain ⟨s', hreturns, hs', -⟩ := ih.call hlegal
    exact hcall.eq hreturns ▸ hs'

end Runs

end BufferedState

end Anthemius.StateStore

import Anthemius.FillerPathCosts

/-! The map of the filler keeps one transaction for each key, the one that finishes last. A
transaction that looks a key up therefore gets an edge to a transaction that touched the key
and finishes no earlier than any other that did. Edges lead further back only through
transactions that look the key up themselves and take some time: a short write that follows a
long one without reading leaves no trace. -/
namespace Anthemius
open CriticalPaths CheckedLoops LittleEndianBytes

namespace DependencyFiller
variable {T : Type} (f : DependencyFiller T)

/-- There is a transaction at position `i`, and it has the property. -/
def Holds (P : Candidate T → Prop) (i : ℕ) : Prop := ∃ p, f.accepted[i]? = some p ∧ P p.1

/-- The transaction at position `i` writes the key or is sent from it. -/
def Touches (k : Bytes) : ℕ → Prop := f.Holds fun c => k ∈ c.touched

/-- The transaction at position `j` reads the key or is sent from it. -/
def Consults (k : Bytes) : ℕ → Prop := f.Holds fun c => k ∈ c.consulted

instance (P : Candidate T → Prop) [DecidablePred P] : DecidablePred (f.Holds P) := fun i =>
  decidable_of_iff (∃ p ∈ f.accepted[i]?, P p.1) Iff.rfl

instance (k : Bytes) : DecidablePred (f.Touches k) := fun i =>
  inferInstanceAs (Decidable (f.Holds _ i))

instance (k : Bytes) : DecidablePred (f.Consults k) := fun i =>
  inferInstanceAs (Decidable (f.Holds _ i))

/-- The map knows for each key a latest transaction that touched it, and so did the look-ups
of every accepted transaction. -/
structure Recalls (f : DependencyFiller T) (lastTouched : LastTouched) : Prop where
  touches : ∀ k t i, lastTouched k = some (t, i) → f.Touches k i
  latest : ∀ k i, f.Touches k i → f.finishTime i ≤ currMax lastTouched k
  edge : ∀ k i j, i < j → f.Touches k i → f.Consults k j → 0 < f.finishTime i →
    ∃ p ∈ f.parents j, f.Touches k p ∧ f.finishTime i ≤ f.finishTime p

variable {f}

theorem Holds.lt {P : Candidate T → Prop} {i : ℕ} (h : f.Holds P i) : i < f.accepted.length := by
  obtain ⟨p, hp, -⟩ := h
  exact (List.getElem?_eq_some_iff.mp hp).1

theorem Recalls.new {gasPerCore maxTxns cores : ℕ}
    (hnew : new gasPerCore maxTxns cores = some f) : f.Recalls fun _ => none := by
  obtain rfl := eq_of_new hnew
  exact ⟨nofun, fun k i h => absurd (Holds.lt h) (Nat.not_lt_zero i),
    fun k i j _ h => absurd (Holds.lt h) (Nat.not_lt_zero i)⟩

end DependencyFiller

namespace Fill
variable {T : Type} {goodBlock : Bool} {c : Candidate T} {s s' : Fill T} {deps : Finset ℕ}
  {finish : ℕ} {k : Bytes}

theorem accept_holds_iff {P : Candidate T → Prop} {i : ℕ} :
    (s.accept c deps finish).filler.Holds P i ↔
      s.filler.Holds P i ∨ i = s.filler.accepted.length ∧ P c := by
  simp only [DependencyFiller.Holds, accept]
  rcases lt_trichotomy i s.filler.accepted.length with hi | rfl | hi
  · simp [List.getElem?_append_left hi, hi.ne]
  · simp
  · have hnone : (s.filler.accepted ++ [(c, finish)])[i]? = none :=
      List.getElem?_eq_none (List.length_append.trans_le hi)
    simp [hnone, List.getElem?_eq_none hi.le, hi.ne']

theorem currMax_accept (ht : s.filler.Tracks s.lastTouched) (hfull : s.filler.full = false) :
    currMax (s.accept c deps finish).lastTouched k =
      if k ∈ c.touched then max (currMax s.lastTouched k) finish else currMax s.lastTouched k := by
  rw [currMax, accept_lastTouched ht hfull]
  by_cases hk : k ∈ c.touched
  · by_cases hlt : currMax s.lastTouched k < finish
    · simp [hk, hlt, hlt.le]
    · rw [if_neg fun h => hlt h.2, if_pos hk, max_eq_left (not_lt.mp hlt), currMax]
  · simp [hk, currMax]

theorem currMax_eq_some {lastTouched : LastTouched} (h : 0 < currMax lastTouched k) :
    ∃ i, lastTouched k = some (currMax lastTouched k, i) := by
  unfold currMax at h ⊢
  cases hk : lastTouched k with
  | none => simp [hk] at h
  | some entry => exact ⟨entry.2, rfl⟩

/-- A new transaction finds for each key it looks up the latest one that touched the key. -/
theorem accept_recalls (ht : s.filler.Tracks s.lastTouched) (hr : s.filler.Recalls s.lastTouched)
    {scan : Scan} (hfull : s.filler.full = false)
    (hscan : scan.Covers s.lastTouched c.consulted) :
    (s.accept c scan.dependencies finish).filler.Recalls
      (s.accept c scan.dependencies finish).lastTouched := by
  constructor
  case touches =>
    intro k t i hki
    rw [accept_lastTouched ht hfull] at hki
    refine accept_holds_iff.mpr ?_
    split at hki
    · rename_i hk
      cases hki
      exact .inr ⟨rfl, hk.1⟩
    · exact .inl (hr.touches k t i hki)
  case latest =>
    intro k i hi
    rw [currMax_accept ht hfull]
    rcases accept_holds_iff.mp hi with hi | ⟨rfl, hk⟩
    · rw [accept_finishTime hi.lt]
      have := hr.latest k i hi
      split
      · exact this.trans (le_max_left _ _)
      · exact this
    · rw [accept_finishTime_last, if_pos hk]
      exact le_max_right _ _
  case edge =>
    intro k i j hij hi hj hpos
    have hlt : i < s.filler.accepted.length := by
      rcases accept_holds_iff.mp hj with hj | ⟨rfl, -⟩
      · exact hij.trans hj.lt
      · exact hij
    have hi : s.filler.Touches k i :=
      (accept_holds_iff.mp hi).resolve_right fun h => hlt.ne h.1
    rw [accept_finishTime hlt] at hpos ⊢
    rcases accept_holds_iff.mp hj with hj | ⟨rfl, hk⟩
    · obtain ⟨p, hp, hpk, hle⟩ := hr.edge k i j hij hi hj hpos
      rw [accept_parents ht hj.lt]
      exact ⟨p, hp, accept_holds_iff.mpr (.inl hpk), by rwa [accept_finishTime hpk.lt]⟩
    · have hle := hr.latest k i hi
      obtain ⟨p, hp⟩ := currMax_eq_some (hpos.trans_le hle)
      have hpk := hr.touches k _ p hp
      rw [accept_parents_last ht]
      refine ⟨p, (hscan.mem_dependencies p).mpr ⟨k, hk, _, hp⟩, accept_holds_iff.mpr (.inl hpk), ?_⟩
      rwa [accept_finishTime hpk.lt, (ht.stored k _ p hp).2]

theorem Step.recalls (h : Step goodBlock c s s') (ht : s.filler.Tracks s.lastTouched)
    (hr : s.filler.Recalls s.lastTouched) : s'.filler.Recalls s'.lastTouched := by
  cases h with
  | full | user | skip => exact hr
  | exceeds => exact { hr with }
  | accept scan hfull _ hscan => exact accept_recalls ht hr hfull hscan

end Fill

namespace FillerState
variable {T : Type} {s s' : FillerState T} {c : FillerCall T} {calls : List (FillerCall T)}

end FillerState
end Anthemius

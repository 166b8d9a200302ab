import Mathlib.Logic.Relation
import Mathlib.Data.List.Basic

/-!
# Interleaved runs of a labelled machine

A machine is a partial step function: the label says which component moves and how its
local choices are resolved, and `none` means that the label is not enabled. A guard on
labels and states restricts which steps a run may take; the unrestricted runs are those of
the trivial guard. Invariants, step facts and refinement maps are proved from single steps.
-/
namespace Anthemius.InterleavedRuns

universe u v w

variable {S : Type u} {L : Type v} {T : Type w}

/-- The last element of a history, or one before it. -/
theorem split_concat {history before after : List L} {last l : L}
    (h : history ++ [last] = before ++ l :: after) :
    (before = history ∧ l = last ∧ after = []) ∨
      ∃ after', history = before ++ l :: after' := by
  obtain rfl | ⟨after', last', rfl⟩ := List.eq_nil_or_concat after
  · obtain ⟨hhistory, hlast⟩ := List.append_inj' h rfl
    exact Or.inl ⟨hhistory.symm, (List.cons.inj hlast).1.symm, rfl⟩
  · rw [List.concat_eq_append, ← List.cons_append, ← List.append_assoc] at h
    exact Or.inr ⟨after', (List.append_inj' h rfl).1⟩

/-- Follow a schedule; every label has to be enabled when its turn comes. -/
def follow (step : L → S → Option S) : List L → S → Option S
  | [], s => some s
  | l :: ls, s => (step l s).bind (follow step ls)

/-- Every step of the schedule meets the guard in the state it is taken from. -/
def Guarded (step : L → S → Option S) (guard : L → S → Prop) : List L → S → Prop
  | [], _ => True
  | l :: ls, s => guard l s ∧ ∀ s' ∈ step l s, Guarded step guard ls s'

instance guardedDecidable (step : L → S → Option S) (guard : L → S → Prop)
    [∀ l s, Decidable (guard l s)] : ∀ ls s, Decidable (Guarded step guard ls s)
  | [], _ => .isTrue trivial
  | l :: ls, s =>
    match h : step l s with
    | none => decidable_of_iff (guard l s) (by simp [Guarded, h])
    | some s' =>
      have := guardedDecidable step guard ls s'
      decidable_of_iff (guard l s ∧ Guarded step guard ls s') (by simp [Guarded, h])

/-- States reached from `start` by steps that all meet the guard. -/
inductive Reachable (step : L → S → Option S) (guard : L → S → Prop) (start : S) : S → Prop
  | start : Reachable step guard start start
  | step {s s' : S} (l : L) (hs : Reachable step guard start s) (hg : guard l s)
      (h : step l s = some s') : Reachable step guard start s'

/-- The guard of unrestricted runs. -/
def anyStep (_ : L) (_ : S) : Prop := True

variable {step : L → S → Option S} {guard : L → S → Prop} {start : S}

theorem Reachable.follow {s s' : S} (hs : Reachable step guard start s) (ls : List L)
    (hg : Guarded step guard ls s) (h : follow step ls s = some s') :
    Reachable step guard start s' := by
  induction ls generalizing s with
  | nil =>
    cases h
    exact hs
  | cons l ls ih =>
    obtain ⟨t, ht, htail⟩ := Option.bind_eq_some_iff.mp h
    exact ih (.step l hs hg.1 ht) (hg.2 t ht) htail

theorem guarded_anyStep (ls : List L) (s : S) : Guarded step anyStep ls s := by
  induction ls generalizing s with
  | nil => trivial
  | cons l ls ih => exact ⟨trivial, fun s' _ => ih s'⟩

/-- The end of a schedule that can be evaluated. -/
theorem Reachable.of_schedule (ls : List L) (hg : Guarded step guard ls start) {p : S → Prop}
    [DecidablePred p] (h : (InterleavedRuns.follow step ls start).any (p ·) = true) :
    ∃ s, Reachable step guard start s ∧ p s := by
  obtain ⟨s, hs, hp⟩ := (Option.any_eq_true _ _).mp h
  exact ⟨s, Reachable.start.follow ls hg hs, of_decide_eq_true hp⟩

theorem Reachable.weaken {guard' : L → S → Prop} (hw : ∀ l s, guard l s → guard' l s) {s : S}
    (hs : Reachable step guard start s) : Reachable step guard' start s := by
  induction hs with
  | start => exact .start
  | step l hs hg h ih => exact .step l ih (hw l _ hg) h

theorem Reachable.any {s : S} (hs : Reachable step guard start s) :
    Reachable step anyStep start s :=
  hs.weaken fun _ _ _ => trivial

/-- A predicate that holds at the start and survives every guarded step holds throughout.
The step may use that the state it starts from is reachable. -/
theorem Reachable.invariant {I : S → Prop} (hstart : I start)
    (hstep : ∀ l s s', Reachable step guard start s → I s → guard l s → step l s = some s' → I s')
    {s : S} (hs : Reachable step guard start s) : I s := by
  induction hs with
  | start => exact hstart
  | step l hs hg h ih => exact hstep l _ _ hs ih hg h

/-- An invariant of a system given by a step relation. -/
theorem invariant_of_step {R : T → T → Prop} {first : T} {I : T → Prop} (hstart : I first)
    (hstep : ∀ t t', Relation.ReflTransGen R first t → I t → R t t' → I t')
    {t : T} (ht : Relation.ReflTransGen R first t) : I t := by
  induction ht with
  | refl => exact hstart
  | tail ht h ih => exact hstep _ _ ht ih h

/-- A machine refines a step relation when every step from a state whose abstraction is
reached either leaves the abstraction alone or is a step of the relation. -/
theorem Reachable.simulates {R : T → T → Prop} (abstraction : S → T)
    (hstep : ∀ l s s', Relation.ReflTransGen R (abstraction start) (abstraction s) →
      guard l s → step l s = some s' →
        abstraction s' = abstraction s ∨ R (abstraction s) (abstraction s'))
    {s : S} (hs : Reachable step guard start s) :
    Relation.ReflTransGen R (abstraction start) (abstraction s) := by
  induction hs with
  | start => exact .refl
  | step l hs hg h ih =>
    rcases hstep l _ _ ih hg h with h' | h'
    · exact h' ▸ ih
    · exact ih.tail h'

end Anthemius.InterleavedRuns

import Mathlib.Data.List.Induction
import Mathlib.Data.List.Nodup
import Mathlib.Data.List.Forall2

/-! Lists of updates that are applied from left to right, so that the last update of a key is
the one that stays. A list without repeated keys is the same as a finite map. -/
namespace Anthemius.UpdateLists

variable {K V W : Type} [DecidableEq K]

/-- The update of a key that is still visible after all of them are applied. -/
def lastUpdate (updates : List (K × V)) (key : K) : Option V :=
  updates.foldl (fun value u => if u.1 = key then some u.2 else value) none

@[simp] theorem lastUpdate_nil (key : K) : lastUpdate ([] : List (K × V)) key = none := rfl

theorem lastUpdate_concat (done : List (K × V)) (u : K × V) (key : K) :
    lastUpdate (done ++ [u]) key = if u.1 = key then some u.2 else lastUpdate done key := by
  simp [lastUpdate, List.foldl_append]

/-- The later list counts. -/
theorem lastUpdate_append (first second : List (K × V)) (key : K) :
    lastUpdate (first ++ second) key = (lastUpdate second key).or (lastUpdate first key) := by
  induction second using List.reverseRecOn with
  | nil => simp
  | append_singleton done u ih =>
    rw [← List.append_assoc, lastUpdate_concat, lastUpdate_concat, ih]
    split <;> simp

theorem lastUpdate_map (f : V → W) (updates : List (K × V)) (key : K) :
    lastUpdate (updates.map fun u => (u.1, f u.2)) key = (lastUpdate updates key).map f := by
  induction updates using List.reverseRecOn with
  | nil => rfl
  | append_singleton done u ih =>
    rw [List.map_append, List.map_singleton, lastUpdate_concat, lastUpdate_concat, ih]
    split <;> rfl

theorem lastUpdate_eq_none {updates : List (K × V)} {key : K} :
    lastUpdate updates key = none ↔ key ∉ updates.map Prod.fst := by
  induction updates using List.reverseRecOn with
  | nil => simp
  | append_singleton done u ih =>
    rw [lastUpdate_concat]
    by_cases hu : u.1 = key
    · simp [hu]
    · simp [hu, ih, Ne.symm hu]

theorem lastUpdate_mem {updates : List (K × V)} {key : K} {value : V}
    (h : lastUpdate updates key = some value) : (key, value) ∈ updates := by
  induction updates using List.reverseRecOn with
  | nil => cases h
  | append_singleton done u ih =>
    rw [lastUpdate_concat] at h
    split at h
    · rename_i hu
      cases h
      simp [← hu]
    · exact List.mem_append_left _ (ih h)

theorem lastUpdate_eq_some_iff {updates : List (K × V)} {key : K} {value : V}
    (hn : (updates.map Prod.fst).Nodup) :
    lastUpdate updates key = some value ↔ (key, value) ∈ updates := by
  refine ⟨lastUpdate_mem, fun hmem => ?_⟩
  cases h : lastUpdate updates key with
  | none => exact absurd (List.mem_map_of_mem hmem) (lastUpdate_eq_none.mp h)
  | some other =>
    have := List.inj_on_of_nodup_map hn (lastUpdate_mem h) hmem rfl
    cases this
    rfl

/-- Lists that agree update by update agree in what stays. -/
theorem lastUpdate_forall₂ {R : K → V → W → Prop} {l : List (K × V)} {l' : List (K × W)}
    (h : List.Forall₂ (fun x y => y.1 = x.1 ∧ R x.1 x.2 y.2) l l') (key : K) :
    Option.Rel (R key) (lastUpdate l key) (lastUpdate l' key) := by
  unfold lastUpdate
  have hstart : Option.Rel (R key) none none := .none
  generalize (none : Option V) = a at hstart ⊢
  generalize (none : Option W) = b at hstart ⊢
  induction h generalizing a b with
  | nil => exact hstart
  | @cons x y l l' hxy _ ih =>
    refine ih _ _ ?_
    dsimp only
    rw [hxy.1]
    split
    · rename_i hk
      exact .some (hk ▸ hxy.2)
    · exact hstart

omit [DecidableEq K] in
/-- A partial map over a list is defined where it is defined at every element. -/
theorem mapM_eq_some_iff {f : V → Option W} {l : List V} {ws : List W} :
    l.mapM f = some ws ↔ List.Forall₂ (fun x y => f x = some y) l ws := by
  induction l generalizing ws with
  | nil => cases ws <;> simp
  | cons x l ih =>
    rw [List.mapM_cons, List.forall₂_cons_left_iff]
    constructor
    · intro h
      obtain ⟨y, hy, h⟩ := Option.bind_eq_some_iff.mp h
      obtain ⟨ys, hys, h⟩ := Option.bind_eq_some_iff.mp h
      cases h
      exact ⟨y, ys, hy, ih.mp hys, rfl⟩
    · rintro ⟨y, ys, hy, hys, rfl⟩
      rw [hy, ih.mpr hys]
      rfl

end Anthemius.UpdateLists

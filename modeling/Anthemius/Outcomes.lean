import Mathlib.Tactic.Common

/-! Computations that return a value, fail with an error or crash. A failure can be seen by the
caller and a crash cannot. -/
namespace Anthemius.Outcomes

variable {ε α β : Type}

/-- The outer `none` is a crash. -/
abbrev Outcome (ε α : Type) := ExceptT ε Option α

def crash : Outcome ε α := ExceptT.mk none

def ensure (condition : Prop) [Decidable condition] (err : ε) : Outcome ε Unit :=
  if condition then pure () else throw err

def assert (condition : Prop) [Decidable condition] : Outcome ε Unit :=
  if condition then pure () else crash

/-- A value that must be there. -/
def expect : Option α → Outcome ε α
  | some a => pure a
  | none => crash

/-- A value that is there or else the error is returned. -/
def orElse (x : Option α) (err : ε) : Outcome ε α :=
  match x with
  | some a => pure a
  | none => throw err

/-- The same computation with the errors of the caller. -/
def mapError {ε' : Type} (f : ε → ε') (x : Outcome ε α) : Outcome ε' α :=
  ExceptT.mk (x.run.map fun r => r.mapError f)

/-- The computation ends with the value. -/
def Returns (x : Outcome ε α) (a : α) : Prop := x.run = some (.ok a)

/-- The computation ends with a value or an error. -/
def Safe (x : Outcome ε α) : Prop := x.run ≠ none

section Rules
variable {x : Outcome ε α} {f : α → Outcome ε β} {a a' : α} {b : β} {err err' : ε}
  {condition : Prop} [Decidable condition] {o : Option α}

@[simp] theorem returns_pure : Returns (pure a : Outcome ε α) a' ↔ a = a' := by
  simp [Returns]

@[simp] theorem returns_throw : ¬ Returns (throw err : Outcome ε α) a := by
  simp [Returns]

@[simp] theorem returns_crash : ¬ Returns (crash : Outcome ε α) a := by
  simp [Returns, crash]

@[simp] theorem returns_bind :
    Returns (x >>= f) b ↔ ∃ a, Returns x a ∧ Returns (f a) b := by
  rw [Returns, ExceptT.run_bind]
  unfold Returns
  rcases x.run with _ | (err | a) <;> simp

@[simp] theorem returns_map {g : α → β} : Returns (g <$> x) b ↔ ∃ a, Returns x a ∧ g a = b := by
  rw [← bind_pure_comp, returns_bind]
  simp only [returns_pure]

@[simp] theorem returns_ensure {u : Unit} : Returns (ensure condition err) u ↔ condition := by
  unfold ensure
  split <;> simp [*]

@[simp] theorem returns_assert {u : Unit} :
    Returns (assert condition : Outcome ε Unit) u ↔ condition := by
  unfold assert
  split <;> simp [*]

@[simp] theorem returns_expect : Returns (expect o : Outcome ε α) a ↔ o = some a := by
  cases o <;> simp [expect]

@[simp] theorem returns_orElse : Returns (orElse o err) a ↔ o = some a := by
  cases o <;> simp [orElse]

@[simp] theorem returns_mapError {ε' : Type} {f : ε → ε'} :
    Returns (mapError f x) a ↔ Returns x a := by
  unfold Returns mapError
  rw [ExceptT.run_mk]
  rcases x.run with _ | (err | a') <;> simp [Except.mapError]

theorem returns_mapM {g : α → Outcome ε β} {g' : α → β} {xs : List α}
    (h : ∀ x ∈ xs, Returns (g x) (g' x)) : Returns (xs.mapM g) (xs.map g') := by
  induction xs with
  | nil => simp
  | cons x xs ih =>
    rw [List.forall_mem_cons] at h
    simp only [List.mapM_cons, List.map_cons, returns_bind, returns_pure]
    exact ⟨_, h.1, _, ih h.2, rfl⟩

theorem exists_of_returns_mapM {g : α → Outcome ε β} {xs : List α} {ys : List β}
    (h : Returns (xs.mapM g) ys) : ∀ x ∈ xs, ∃ y, Returns (g x) y := by
  induction xs generalizing ys with
  | nil => exact fun x hx => absurd hx List.not_mem_nil
  | cons x xs ih =>
    rw [List.mapM_cons] at h
    obtain ⟨y, hy, hrest⟩ := returns_bind.mp h
    obtain ⟨rest, hrest, -⟩ := returns_bind.mp hrest
    exact List.forall_mem_cons.mpr ⟨⟨y, hy⟩, ih hrest⟩

theorem Returns.eq (h : Returns x a) (h' : Returns x a') : a = a' := by
  rw [Returns, h] at h'
  cases h'
  rfl

@[simp] theorem safe_pure : Safe (pure a : Outcome ε α) := by
  simp [Safe]

@[simp] theorem safe_throw : Safe (throw err : Outcome ε α) := by
  simp [Safe]

theorem safe_bind : Safe (x >>= f) ↔ Safe x ∧ ∀ a, Returns x a → Safe (f a) := by
  rw [Safe, ExceptT.run_bind]
  unfold Safe Returns
  rcases x.run with _ | (err | a) <;> simp

@[simp] theorem safe_mapError {ε' : Type} {g : ε → ε'} : Safe (mapError g x) ↔ Safe x := by
  unfold Safe mapError
  rw [ExceptT.run_mk]
  rcases x.run with _ | (err | a) <;> simp

@[simp] theorem safe_ensure : Safe (ensure condition err) := by
  unfold ensure
  split <;> simp

@[simp] theorem safe_orElse : Safe (orElse o err) := by
  cases o <;> simp [orElse]

/-- There is no crash, and what is returned has the property. -/
def Ensures (x : Outcome ε α) (P : α → Prop) : Prop := Safe x ∧ ∀ a, Returns x a → P a

variable {P : α → Prop} {Q : β → Prop}

theorem Ensures.bind (h : Ensures x P) (hf : ∀ a, P a → Ensures (f a) Q) : Ensures (x >>= f) Q := by
  refine ⟨safe_bind.mpr ⟨h.1, fun a ha => (hf a (h.2 a ha)).1⟩, fun b hb => ?_⟩
  obtain ⟨a, ha, hb⟩ := returns_bind.mp hb
  exact (hf a (h.2 a ha)).2 b hb

theorem ensures_pure (h : P a) : Ensures (pure a : Outcome ε α) P :=
  ⟨safe_pure, fun _ ha => returns_pure.mp ha ▸ h⟩

theorem ensures_throw : Ensures (throw err : Outcome ε α) P :=
  ⟨safe_throw, fun _ ha => absurd ha returns_throw⟩

theorem ensures_ensure : Ensures (ensure condition err) fun _ => condition :=
  ⟨safe_ensure, fun _ h => returns_ensure.mp h⟩

theorem ensures_assert (h : condition) :
    Ensures (assert condition : Outcome ε Unit) fun _ => True := by
  rw [assert, if_pos h]
  exact ensures_pure trivial

theorem Ensures.mapError (h : Ensures x P) {ε' : Type} (g : ε → ε') :
    Ensures (Outcomes.mapError g x) P :=
  ⟨safe_mapError.mpr h.1, fun a ha => h.2 a (returns_mapError.mp ha)⟩

theorem Ensures.mono (h : Ensures x P) {P' : α → Prop} (himp : ∀ a, P a → P' a) : Ensures x P' :=
  ⟨h.1, fun a ha => himp a (h.2 a ha)⟩

theorem Returns.safe (h : Returns x a) : Safe x := by
  rw [Safe, h]
  exact Option.some_ne_none _

end Rules

end Anthemius.Outcomes

import Mathlib.Data.List.Induction
import Mathlib.Data.List.Perm.Basic
import Mathlib.Data.List.Sigma
import Mathlib.Logic.Relation
import Mathlib.Tactic.Common

/-! Loops whose body may panic: a loop over a list and a loop that ends with a break. `none`
is the panic. The rules for the first carry the part of the list that is done; the second runs
on fuel, and a variant of the body shows that the fuel is never used up. -/
namespace Anthemius.CheckedLoops

universe u v

variable {S : Type u} {A : Type v}

/-! ## Loops over a list -/

section Lists
variable {f : S → A → Option S}

theorem foldlM_concat (done : List A) (a : A) (s : S) :
    (done ++ [a]).foldlM f s = (done.foldlM f s).bind (f · a) := by
  simp only [List.foldlM_append, List.foldlM_cons, List.foldlM_nil, bind_pure]
  rfl

/-- What every round keeps, holds when the loop returns. -/
theorem foldlM_invariant {I : List A → S → Prop} {s s' : S} (l : List A) (h0 : I [] s)
    (hstep : ∀ done a t t', I done t → f t a = some t' → I (done ++ [a]) t')
    (h : l.foldlM f s = some s') : I l s' := by
  induction l using List.reverseRecOn generalizing s' with
  | nil =>
    cases h
    exact h0
  | append_singleton done a ih =>
    rw [foldlM_concat] at h
    obtain ⟨t, ht, hlast⟩ := Option.bind_eq_some_iff.mp h
    exact hstep done a t s' (ih ht) hlast

/-- The same for an invariant that does not speak of the list. -/
theorem foldlM_keeps {I : S → Prop} {s s' : S} {l : List A} (h0 : I s)
    (hstep : ∀ a ∈ l, ∀ t t', I t → f t a = some t' → I t') (h : l.foldlM f s = some s') :
    I s' := by
  induction l generalizing s with
  | nil =>
    cases h
    exact h0
  | cons a l ih =>
    obtain ⟨t, ht, h⟩ := Option.bind_eq_some_iff.mp h
    exact ih (hstep a List.mem_cons_self s t h0 ht)
      (fun b hb => hstep b (List.mem_cons_of_mem a hb)) h

/-- A loop that keeps an invariant under which no round panics does not panic. -/
theorem foldlM_returns {I : S → Prop} {s : S} (l : List A) (h0 : I s)
    (hstep : ∀ a t, I t → ∃ t', f t a = some t' ∧ I t') :
    ∃ s', l.foldlM f s = some s' ∧ I s' := by
  induction l generalizing s with
  | nil => exact ⟨s, rfl, h0⟩
  | cons a l ih =>
    obtain ⟨t, ht, hI⟩ := hstep a s h0
    rw [List.foldlM_cons, ht]
    exact ih hI

/-- A map whose items are each checked returns when all checks pass. -/
theorem mapM_checked {B : Type v} {g : A → Option B} {passes : A → Prop} {result : A → B}
    (hg : ∀ a b, g a = some b ↔ passes a ∧ b = result a) (l : List A) :
    ∀ bs, l.mapM g = some bs ↔ (∀ a ∈ l, passes a) ∧ bs = l.map result := by
  induction l with
  | nil => simp [eq_comm]
  | cons a l ih =>
    intro bs
    simp only [List.mapM_cons, Option.bind_eq_bind, Option.bind_eq_some_iff, hg, ih,
      Option.pure_def, Option.some.injEq, List.forall_mem_cons, List.map_cons]
    constructor
    · rintro ⟨_, ⟨ha, rfl⟩, _, ⟨hl, rfl⟩, rfl⟩
      exact ⟨⟨ha, hl⟩, rfl⟩
    · rintro ⟨⟨ha, hl⟩, rfl⟩
      exact ⟨_, ⟨ha, rfl⟩, _, ⟨hl, rfl⟩, rfl⟩

theorem mem_of_mapM {B : Type v} {g : A → Option B} {l : List A} {bs : List B}
    (h : l.mapM g = some bs) {b : B} (hb : b ∈ bs) : ∃ a ∈ l, g a = some b := by
  induction l generalizing bs with
  | nil =>
    cases h
    cases hb
  | cons a l ih =>
    rw [List.mapM_cons] at h
    obtain ⟨first, hfirst, h⟩ := Option.bind_eq_some_iff.mp h
    obtain ⟨rest, hrest, h⟩ := Option.bind_eq_some_iff.mp h
    cases h
    rcases List.mem_cons.mp hb with rfl | hb
    · exact ⟨a, List.mem_cons_self, hfirst⟩
    · obtain ⟨a', ha', hg⟩ := ih hrest hb
      exact ⟨a', List.mem_cons_of_mem _ ha', hg⟩

end Lists

theorem flatten_of_getElem? {ls : List (List A)} {i : ℕ} {v : List A} (h : ls[i]? = some v) :
    ls.flatten = (ls.take i).flatten ++ (v ++ (ls.drop (i + 1)).flatten) := by
  obtain ⟨hi, rfl⟩ := List.getElem?_eq_some_iff.mp h
  calc ls.flatten = (ls.take i ++ ls.drop i).flatten := by rw [List.take_append_drop]
    _ = _ := by rw [List.flatten_append, List.drop_eq_getElem_cons hi, List.flatten_cons]

theorem flatten_set {ls : List (List A)} {i : ℕ} (hi : i < ls.length) (v : List A) :
    (ls.set i v).flatten = (ls.take i).flatten ++ (v ++ (ls.drop (i + 1)).flatten) := by
  rw [List.set_eq_take_append_cons_drop, if_pos hi]
  simp

/-- A loop has put each item of the list at the end of one of two others. -/
inductive Sorts : List A → List A → List A → Prop
  | nil : Sorts [] [] []
  | left {l a b : List A} (x : A) (h : Sorts l a b) : Sorts (l ++ [x]) (a ++ [x]) b
  | right {l a b : List A} (x : A) (h : Sorts l a b) : Sorts (l ++ [x]) a (b ++ [x])

namespace Sorts
variable {l a b : List A}

theorem perm (h : Sorts l a b) : (a ++ b).Perm l := by
  induction h with
  | nil => exact .nil
  | @left l a b x _ ih =>
    have hx := ih.append_right [x]
    rw [List.append_assoc] at hx ⊢
    exact (List.Perm.append_left a List.perm_append_comm).trans hx
  | @right l a b x _ ih =>
    rw [← List.append_assoc]
    exact ih.append_right [x]

end Sorts

/-! ## Loops over the entries of a map -/

section Entries
variable {K V B ε : Type} [DecidableEq K] {view : S → K → B} {I : S → Prop}
  {f : S → (_ : K) × V → Except ε S} {g : B → V → Except ε B}

/-- A loop whose rounds each change what is seen under their own key does to every key what its
entry does to it, and returns if every entry succeeds on what was seen under its key at first. -/
theorem foldlM_entries
    (hround : ∀ s key v b, I s → g (view s key) v = .ok b →
      ∃ s', f s ⟨key, v⟩ = .ok s' ∧ I s' ∧ view s' = Function.update (view s) key b)
    (l : List ((_ : K) × V)) (hn : l.NodupKeys) {s : S} (hs : I s) (result : K → B)
    (hresult : ∀ key, (l.dlookup key).elim (view s key = result key)
      fun v => g (view s key) v = .ok (result key)) :
    ∃ s', l.foldlM f s = .ok s' ∧ I s' ∧ view s' = result := by
  induction l generalizing s with
  | nil => exact ⟨s, rfl, hs, funext fun key => hresult key⟩
  | cons entry l ih =>
    obtain ⟨key, v⟩ := entry
    obtain ⟨hkey, hn⟩ := List.nodupKeys_cons.mp hn
    have hfirst : g (view s key) v = .ok (result key) := by
      simpa [List.dlookup_cons_eq] using hresult key
    obtain ⟨s', hs', hI, hview⟩ := hround s key v _ hs hfirst
    rw [List.foldlM_cons, hs']
    refine ih hn hI fun other => ?_
    by_cases hother : other = key
    · subst hother
      rw [List.dlookup_eq_none.mpr hkey, hview]
      exact Function.update_self ..
    · have hrest := hresult other
      rw [List.dlookup_cons_ne _ _ hother] at hrest
      rwa [hview, Function.update_of_ne hother]

end Entries

/-! ## Loops that end with a break -/

inductive Flow (S : Type u)
  | next (s : S)
  | done (s : S)

def Flow.state : Flow S → S
  | .next s | .done s => s

/-- Rounds until the first break; running out of fuel counts as a panic. -/
def loop (body : S → Option (Flow S)) : ℕ → S → Option S
  | 0, _ => none
  | fuel + 1, s =>
    match body s with
    | none => none
    | some (.done s') => some s'
    | some (.next s') => loop body fuel s'

variable {body : S → Option (Flow S)}

/-- The states in which a round begins. -/
def Heads (body : S → Option (Flow S)) : S → S → Prop :=
  Relation.ReflTransGen fun s s' => body s = some (.next s')

theorem Heads.invariant {I : S → Prop} {s s' : S} (h : Heads body s s') (h0 : I s)
    (hnext : ∀ t t', I t → body t = some (.next t') → I t') : I s' := by
  induction h with
  | refl => exact h0
  | tail _ hround ih => exact hnext _ _ ih hround

/-- The state after some rounds without a break. -/
def rounds (body : S → Option (Flow S)) : ℕ → S → Option S
  | 0, s => some s
  | n + 1, s =>
    match body s with
    | some (.next s') => rounds body n s'
    | _ => none

theorem heads_of_rounds {n : ℕ} {s s' : S} (h : rounds body n s = some s') : Heads body s s' := by
  induction n generalizing s with
  | zero =>
    cases h
    exact .refl
  | succ n ih =>
    simp only [rounds] at h
    split at h
    · rename_i t hbody
      exact .head hbody (ih h)
    · cases h

/-- A loop that returns has a last round. -/
theorem loop_last {fuel : ℕ} {s s' : S} (h : loop body fuel s = some s') :
    ∃ t, Heads body s t ∧ body t = some (.done s') := by
  induction fuel generalizing s with
  | zero => cases h
  | succ fuel ih =>
    simp only [loop] at h
    split at h
    · cases h
    · rename_i t hbody
      cases h
      exact ⟨s, .refl, hbody⟩
    · rename_i t hbody
      obtain ⟨last, hheads, hdone⟩ := ih h
      exact ⟨last, .head hbody hheads, hdone⟩

/-- What every round keeps and the last one turns into the result. -/
theorem loop_invariant {I Q : S → Prop} {fuel : ℕ} {s s' : S} (h0 : I s)
    (hnext : ∀ t t', I t → body t = some (.next t') → I t')
    (hdone : ∀ t t', I t → body t = some (.done t') → Q t')
    (h : loop body fuel s = some s') : Q s' := by
  obtain ⟨t, hheads, hlast⟩ := loop_last h
  exact hdone t s' (hheads.invariant h0 hnext) hlast

/-- Fuel above a variant of the body is as good as any other. -/
theorem loop_fuel (variant : S → ℕ)
    (hvariant : ∀ t t', body t = some (.next t') → variant t' < variant t) {fuel fuel' : ℕ}
    {s : S} (h : variant s < fuel) (h' : variant s < fuel') :
    loop body fuel s = loop body fuel' s := by
  induction fuel generalizing fuel' s with
  | zero => omega
  | succ fuel ih =>
    obtain ⟨fuel', rfl⟩ : ∃ k, fuel' = k + 1 := ⟨fuel' - 1, by omega⟩
    simp only [loop]
    split
    · rfl
    · rfl
    · rename_i t hbody
      have := hvariant s t hbody
      exact ih (by omega) (by omega)

end Anthemius.CheckedLoops

import Mathlib.Data.List.Nodup
import Mathlib.Data.List.Perm.Basic
import Mathlib.Algebra.BigOperators.Group.List.Basic
import Mathlib.Algebra.Ring.Nat
import Mathlib.Tactic.Common

/-! Maps in which the order of the entries does not matter, read as lists of entries with
distinct keys, and sums over their entries. -/
namespace Anthemius.EntryMaps

universe u v

variable {K : Type u} {V : Type v} [DecidableEq K]

def get (k : K) : List (K × V) → Option V
  | [] => none
  | (k', v) :: rest => if k' = k then some v else get k rest

def erase (k : K) (entries : List (K × V)) : List (K × V) :=
  entries.filter fun entry => entry.1 ≠ k

def set (k : K) (v : V) (entries : List (K × V)) : List (K × V) := (k, v) :: erase k entries

abbrev Distinct (entries : List (K × V)) : Prop := (entries.map Prod.fst).Nodup

variable {k k' : K} {v : V} {entries entries' : List (K × V)}

theorem mem_erase {entry : K × V} : entry ∈ erase k entries ↔ entry ∈ entries ∧ entry.1 ≠ k := by
  simp [erase]

theorem mem_of_get (h : get k entries = some v) : (k, v) ∈ entries := by
  induction entries with
  | nil => cases h
  | cons entry rest ih =>
    rw [get] at h
    split at h
    next hkey =>
      cases h
      exact hkey ▸ List.mem_cons_self
    next => exact List.mem_cons_of_mem _ (ih h)

theorem get_eq_none : get k entries = none ↔ k ∉ entries.map Prod.fst := by
  induction entries with
  | nil => simp [get]
  | cons entry rest ih =>
    rw [get, List.map_cons, List.mem_cons, not_or, ← ih]
    split
    next hkey => simp [hkey]
    next hkey => exact ⟨fun h => ⟨fun heq => hkey heq.symm, h⟩, fun h => h.2⟩

theorem Distinct.get_eq (h : Distinct entries) (hin : (k, v) ∈ entries) :
    get k entries = some v := by
  rcases hget : get k entries with _ | v'
  · exact absurd (List.mem_map_of_mem hin) (get_eq_none.mp hget)
  · cases List.inj_on_of_nodup_map h (mem_of_get hget) hin rfl
    rfl

@[simp] theorem get_erase_self : get k (erase k entries) = none := by
  rw [get_eq_none, List.mem_map]
  rintro ⟨entry, hentry, heq⟩
  exact (mem_erase.mp hentry).2 heq

theorem get_erase_of_ne (h : k' ≠ k) : get k' (erase k entries) = get k' entries := by
  induction entries with
  | nil => rfl
  | cons entry rest ih =>
    unfold erase at ih ⊢
    rw [List.filter_cons]
    split
    next => rw [get, get, ih]
    next hkey =>
      have hentry : entry.1 = k := by simpa using hkey
      rw [ih, get, if_neg fun heq => h (heq.symm.trans hentry)]

@[simp] theorem get_set_self : get k (set k v entries) = some v := if_pos rfl

theorem get_set_of_ne (h : k' ≠ k) : get k' (set k v entries) = get k' entries := by
  rw [set, get, if_neg h.symm, get_erase_of_ne h]

theorem erase_of_get_eq_none (h : get k entries = none) : erase k entries = entries := by
  refine List.filter_eq_self.mpr fun entry hentry => ?_
  refine decide_eq_true fun hkey => get_eq_none.mp h ?_
  exact hkey ▸ List.mem_map_of_mem hentry

theorem Distinct.erase (h : Distinct entries) : Distinct (erase k entries) :=
  List.Nodup.sublist (List.Sublist.map _ List.filter_sublist) h

theorem Distinct.set (h : Distinct entries) : Distinct (set k v entries) := by
  refine List.nodup_cons.mpr ⟨?_, h.erase⟩
  exact get_eq_none.mp get_erase_self

theorem Distinct.mem_iff (h : Distinct entries) : (k, v) ∈ entries ↔ get k entries = some v :=
  ⟨h.get_eq, mem_of_get⟩

theorem Distinct.perm_of_get_eq (h : Distinct entries) (h' : Distinct entries')
    (hget : ∀ k, get k entries = get k entries') : entries.Perm entries' := by
  refine (List.perm_ext_iff_of_nodup (List.Nodup.of_map _ h)
    (List.Nodup.of_map _ h')).mpr ?_
  rintro ⟨k, v⟩
  rw [h.mem_iff, h'.mem_iff, hget]

/-- The entry of a key beside the other entries. -/
theorem Distinct.perm_of_get (h : Distinct entries) (hget : get k entries = some v) :
    entries.Perm ((k, v) :: EntryMaps.erase k entries) := by
  refine h.perm_of_get_eq h.set fun k' => ?_
  by_cases hkey : k' = k
  · rw [hkey, hget]
    exact get_set_self.symm
  · exact (get_set_of_ne hkey).symm

/-! ## Updates of a map -/

/-- The entries of a list are added one by one. -/
def extend (entries added : List (K × V)) : List (K × V) :=
  added.foldl (fun entries entry => set entry.1 entry.2 entries) entries

/-- A map with the values of the entries. -/
def overlay (entries : List (K × V)) (m : K → V) (k : K) : V := (get k entries).getD (m k)

/-- The values of the entries are set one by one. -/
def applyAll (entries : List (K × V)) (m : K → V) : K → V :=
  entries.foldl (fun m entry => Function.update m entry.1 entry.2) m

theorem Distinct.extend {added : List (K × V)} (h : Distinct entries) :
    Distinct (extend entries added) := by
  induction added generalizing entries with
  | nil => exact h
  | cons entry rest ih => exact ih h.set

theorem extend_append {added added' : List (K × V)} :
    extend entries (added ++ added') = extend (extend entries added) added' :=
  List.foldl_append

/-- The added entries come first. -/
theorem Distinct.get_extend {added : List (K × V)} (h : Distinct added) :
    get k (EntryMaps.extend entries added) = (get k added).or (get k entries) := by
  induction added generalizing entries with
  | nil => rfl
  | cons entry rest ih =>
    obtain ⟨hfresh, hrest⟩ := List.nodup_cons.mp h
    change get k (EntryMaps.extend (EntryMaps.set entry.1 entry.2 entries) rest) = _
    rw [ih hrest, get]
    split
    next heq =>
      rw [← heq, get_eq_none.mpr hfresh, get_set_self]
      rfl
    next hne => rw [get_set_of_ne (Ne.symm hne)]

theorem overlay_congr {m : K → V} (h : ∀ k, get k entries = get k entries') :
    overlay entries m = overlay entries' m := by
  funext k
  rw [overlay, overlay, h k]

theorem overlay_set {m : K → V} :
    overlay (set k v entries) m = Function.update (overlay entries m) k v := by
  funext k'
  by_cases h : k' = k
  · rw [h, overlay, get_set_self, Function.update_self, Option.getD_some]
  · rw [overlay, get_set_of_ne h, Function.update_of_ne h, overlay]

theorem overlay_extend {added : List (K × V)} {m : K → V} :
    overlay (extend entries added) m = applyAll added (overlay entries m) := by
  induction added generalizing entries with
  | nil => rfl
  | cons entry rest ih =>
    rw [extend, List.foldl_cons, ← extend, ih, overlay_set]
    rfl

theorem Distinct.applyAll_eq (h : Distinct entries) (m : K → V) :
    applyAll entries m = overlay entries m := by
  induction entries generalizing m with
  | nil => rfl
  | cons entry rest ih =>
    have hrest := List.nodup_cons.mp h
    rw [applyAll, List.foldl_cons, ← applyAll, ih hrest.2]
    funext k
    rw [overlay, overlay, get]
    split
    next hkey =>
      rw [← hkey, get_eq_none.mpr hrest.1, Option.getD_none, Function.update_self]
      rfl
    next hkey => rw [Function.update_of_ne fun heq => hkey heq.symm]

/-! ## Sums -/

def total {K : Type u} {V : Type v} (weight : K × V → ℕ) (entries : List (K × V)) : ℕ :=
  (entries.map weight).sum

variable {weight : K × V → ℕ}

omit [DecidableEq K] in
@[simp] theorem total_cons {entry : K × V} :
    total weight (entry :: entries) = weight entry + total weight entries := by
  simp [total]

omit [DecidableEq K] in
theorem total_perm (h : entries.Perm entries') : total weight entries = total weight entries' :=
  (h.map weight).sum_eq

end Anthemius.EntryMaps

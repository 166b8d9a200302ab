import Mathlib.Data.List.Sort
import Mathlib.Tactic.Common

/-! Ordered maps, read as lists of entries with increasing keys. An entry is added with a rule
for a key that is already there. -/
namespace Anthemius.OrderedEntries

universe u v

variable {K : Type u} {V : Type v} [LinearOrder K]

/-- `keep` chooses between the old and the new value of a key that is already there. -/
def insertWith (keep : V → V → V) (k : K) (v : V) : List (K × V) → List (K × V)
  | [] => [(k, v)]
  | (k', v') :: rest =>
    if k < k' then (k, v) :: (k', v') :: rest
    else if k = k' then (k', keep v' v) :: rest
    else (k', v') :: insertWith keep k v rest

def insert (k : K) (v : V) (entries : List (K × V)) : List (K × V) :=
  insertWith (fun _ new => new) k v entries

abbrev Ordered (entries : List (K × V)) : Prop := (entries.map Prod.fst).Pairwise (· < ·)

section Entries
variable {keep : V → V → V} {k : K} {v : V} {entries : List (K × V)}

theorem insertWith_perm (h : k ∉ entries.map Prod.fst) :
    (insertWith keep k v entries).Perm ((k, v) :: entries) := by
  induction entries with
  | nil => exact List.Perm.refl _
  | cons entry rest ih =>
    rw [List.map_cons, List.mem_cons, not_or] at h
    unfold insertWith
    rw [if_neg h.1]
    split
    · exact List.Perm.refl _
    · exact ((ih h.2).cons entry).trans (List.Perm.swap _ _ _)

theorem mem_keys_insertWith {k' : K} : k' ∈ (insertWith keep k v entries).map Prod.fst ↔
    k' = k ∨ k' ∈ entries.map Prod.fst := by
  induction entries with
  | nil => simp [insertWith]
  | cons entry rest ih =>
    unfold insertWith
    split_ifs with hlt heq
    · simp
    · simp [heq]
    · rw [List.map_cons, List.mem_cons, ih, List.map_cons, List.mem_cons]
      tauto

theorem Ordered.insertWith (h : Ordered entries) : Ordered (insertWith keep k v entries) := by
  induction entries with
  | nil => exact List.pairwise_singleton _ _
  | cons entry rest ih =>
    obtain ⟨hhead, hrest⟩ := List.pairwise_cons.mp h
    unfold OrderedEntries.insertWith
    split_ifs with hlt heq
    · refine List.pairwise_cons.mpr ⟨?_, h⟩
      intro k' hk'
      obtain rfl | hk' := List.mem_cons.mp hk'
      · exact hlt
      · exact hlt.trans (hhead k' hk')
    · exact List.pairwise_cons.mpr ⟨hhead, hrest⟩
    · refine List.pairwise_cons.mpr ⟨?_, ih hrest⟩
      intro k' hk'
      obtain rfl | hk' := mem_keys_insertWith.mp hk'
      · exact lt_of_le_of_ne (not_lt.mp hlt) (Ne.symm heq)
      · exact hhead k' hk'

end Entries

theorem Ordered.nodup {entries : List (K × V)} (h : Ordered entries) :
    (entries.map Prod.fst).Nodup :=
  h.imp ne_of_lt

/-- Two ordered lists of the same entries are equal. -/
theorem Ordered.eq_of_perm {first second : List (K × V)} (hfirst : Ordered first)
    (hsecond : Ordered second) (h : first.Perm second) : first = second := by
  refine List.Perm.eq_of_pairwise ?_ (List.pairwise_map.mp hfirst) (List.pairwise_map.mp hsecond) h
  intro a b _ _ hab hba
  exact absurd hab hba.asymm

end Anthemius.OrderedEntries

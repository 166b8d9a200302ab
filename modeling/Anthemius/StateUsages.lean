import Anthemius.EntryMaps
import Anthemius.Outcomes

/-!
# The storage usage of a state

The number of items and bytes of a state is kept by differences: a write adds the new item and
removes the one it replaces.
-/
namespace Anthemius.StateStore

open EntryMaps Outcomes

variable {K V ε : Type}

inductive StateStorageUsage
  | tracked (items bytes : ℕ)
  | untracked
  deriving DecidableEq

namespace StateStorageUsage

def addItem (bytesDelta : ℕ) : StateStorageUsage → StateStorageUsage
  | .tracked items bytes => .tracked (items + 1) (bytes + bytesDelta)
  | .untracked => .untracked

/-- The subtractions are checked. -/
def removeItem (bytesDelta : ℕ) : StateStorageUsage → Outcome ε StateStorageUsage
  | .tracked items bytes => do
    assert (1 ≤ items ∧ bytesDelta ≤ bytes)
    pure (.tracked (items - 1) (bytes - bytesDelta))
  | .untracked => pure .untracked

end StateStorageUsage

/-- The sizes of keys and values in bytes. -/
structure Sizes (K V : Type) where
  key : K → ℕ
  value : V → ℕ

def Sizes.item (sizes : Sizes K V) (item : K × V) : ℕ := sizes.key item.1 + sizes.value item.2

namespace StateStorageUsage

/-- The usage after a value is written over the one that was there. -/
def replace (sizes : Sizes K V) (key : K) (old new : Option V) (usage : StateStorageUsage) :
    Outcome ε StateStorageUsage :=
  let added := match new with
    | some value => usage.addItem (sizes.item (key, value))
    | none => usage
  match old with
  | some value => added.removeItem (sizes.item (key, value))
  | none => pure added

variable [DecidableEq K]

/-- The usage counts the items of a map. -/
def Tallies (sizes : Sizes K V) (usage : StateStorageUsage) (m : K → Option V) : Prop :=
  ∃ entries : List (K × V), Distinct entries ∧ (∀ k, get k entries = m k) ∧
    usage = .tracked entries.length (total sizes.item entries)

variable {sizes : Sizes K V} {usage usage' : StateStorageUsage} {m : K → Option V}

theorem Tallies.unique (h : usage.Tallies sizes m) (h' : usage'.Tallies sizes m) :
    usage = usage' := by
  obtain ⟨entries, hdistinct, hget, rfl⟩ := h
  obtain ⟨entries', hdistinct', hget', rfl⟩ := h'
  have hperm : entries.Perm entries' :=
    Distinct.perm_of_get_eq hdistinct hdistinct' fun k => (hget k).trans (hget' k).symm
  rw [hperm.length_eq, total_perm hperm]

theorem Tallies.split (h : usage.Tallies sizes m) (key : K) :
    ∃ rest : List (K × V), Distinct rest ∧ get key rest = none ∧
      (∀ k, k ≠ key → get k rest = m k) ∧
      usage = match m key with
        | some old => .tracked (rest.length + 1) (sizes.item (key, old) + total sizes.item rest)
        | none => .tracked rest.length (total sizes.item rest) := by
  obtain ⟨entries, hdistinct, hget, rfl⟩ := h
  refine ⟨erase key entries, hdistinct.erase, get_erase_self, fun k hk => ?_, ?_⟩
  · rw [get_erase_of_ne hk, hget]
  · rcases hold : m key with _ | old
    · rw [erase_of_get_eq_none ((hget key).trans hold)]
    · have hperm := hdistinct.perm_of_get ((hget key).trans hold)
      rw [hperm.length_eq, total_perm hperm, total_cons, List.length_cons]

theorem Tallies.replace (h : usage.Tallies sizes m) (key : K) (new : Option V) :
    ∃ usage', Returns (usage.replace sizes key (m key) new : Outcome ε _) usage' ∧
      usage'.Tallies sizes (Function.update m key new) := by
  obtain ⟨rest, hdistinct, hnone, hrest, rfl⟩ := h.split key
  -- the usage after the call, whatever the order of the additions
  have hreturns : Returns (StateStorageUsage.replace sizes key (m key) new
      (match m key with
        | some old => .tracked (rest.length + 1) (sizes.item (key, old) + total sizes.item rest)
        | none => .tracked rest.length (total sizes.item rest)) : Outcome ε _)
      (match new with
        | some value => .tracked (rest.length + 1) (sizes.item (key, value) + total sizes.item rest)
        | none => .tracked rest.length (total sizes.item rest)) := by
    unfold StateStorageUsage.replace
    cases m key <;> cases new <;>
      simp only [addItem, removeItem, returns_bind, returns_pure, returns_assert,
        StateStorageUsage.tracked.injEq, exists_const, true_and]
    all_goals omega
  refine ⟨_, hreturns, ?_⟩
  cases new with
  | none =>
    refine ⟨rest, hdistinct, fun k => ?_, rfl⟩
    by_cases hk : k = key
    · rw [hk, hnone, Function.update_self]
    · rw [hrest k hk, Function.update_of_ne hk]
  | some value =>
    refine ⟨(key, value) :: rest, ?_, fun k => ?_, ?_⟩
    · exact List.nodup_cons.mpr ⟨get_eq_none.mp hnone, hdistinct⟩
    · by_cases hk : k = key
      · rw [hk, Function.update_self]
        exact if_pos rfl
      · rw [Function.update_of_ne hk, ← hrest k hk]
        exact if_neg (Ne.symm hk)
    · rw [total_cons, List.length_cons]

end StateStorageUsage

end Anthemius.StateStore

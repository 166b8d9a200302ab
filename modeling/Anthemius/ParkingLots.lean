import Mathlib.Algebra.Ring.Nat
import Mathlib.Data.List.Basic
import Mathlib.Data.List.Nodup
import Mathlib.Data.List.MinMax
import Mathlib.Logic.Function.Basic
import Mathlib.Tactic.Common

/-!
# The parking lot

Transactions that are not ready are listed by account. A second table has the position of each
account in the list. An account that has no more transactions gives its place to the last one. A
counter has the number of all listed transactions.
-/
namespace Anthemius.Mempool

abbrev AccountAddress := ℕ

/-- Logical pointer to a transaction: its account and its sequence number. -/
abbrev TxnPointer := AccountAddress × ℕ

/-- The last element takes the place of the removed one. -/
def swapRemove {α : Type} (l : List α) (index : ℕ) : List α :=
  match l.getLast? with
  | some last => (l.set index last).dropLast
  | none => l

theorem map_swapRemove {α β : Type} (f : α → β) (l : List α) (index : ℕ) :
    (swapRemove l index).map f = swapRemove (l.map f) index := by
  unfold swapRemove
  rw [List.getLast?_map]
  cases l.getLast? with
  | none => rfl
  | some last => rw [List.map_dropLast, List.map_set, Option.map_some]

theorem getElem?_swapRemove {α : Type} {l : List α} {index : ℕ} (h : index < l.length) (j : ℕ) :
    (swapRemove l index)[j]? =
      if j + 1 < l.length then (if j = index then l[l.length - 1]? else l[j]?) else none := by
  unfold swapRemove
  cases hlast : l.getLast? with
  | none =>
    rw [List.getLast?_eq_none_iff] at hlast
    rw [hlast] at h
    exact absurd h (Nat.not_lt_zero _)
  | some last =>
    rw [List.getLast?_eq_getElem?] at hlast
    rw [List.getElem?_dropLast, List.length_set, List.getElem?_set]
    grind

theorem mem_of_mem_swapRemove {α : Type} {l : List α} {index : ℕ} (h : index < l.length) {x : α}
    (hx : x ∈ swapRemove l index) : x ∈ l := by
  obtain ⟨j, hj⟩ := List.mem_iff_getElem?.mp hx
  rw [getElem?_swapRemove h] at hj
  grind [List.mem_of_getElem?]

theorem swapRemove_set {α : Type} {l : List α} {index : ℕ} (h : index < l.length) (x : α) :
    swapRemove (l.set index x) index = swapRemove l index := by
  refine List.ext_getElem? fun j => ?_
  rw [getElem?_swapRemove h, getElem?_swapRemove (by rwa [List.length_set]), List.length_set]
  grind

structure ParkingLotIndex where
  data : List (AccountAddress × List ℕ)
  accountIndices : AccountAddress → Option ℕ
  size : ℕ

namespace ParkingLotIndex

def new : ParkingLotIndex := ⟨[], fun _ => none, 0⟩

variable (lot : ParkingLotIndex)

/-- An account with a position but without an entry is only logged. -/
def insert (txn : TxnPointer) : ParkingLotIndex :=
  match lot.accountIndices txn.1 with
  | some index =>
    match lot.data[index]? with
    | some (account, seqNums) =>
      { lot with
        data := lot.data.set index (account, seqNums.insert txn.2)
        size := if txn.2 ∈ seqNums then lot.size else lot.size + 1 }
    | none => lot
  | none =>
    { data := lot.data ++ [(txn.1, [txn.2])]
      accountIndices := Function.update lot.accountIndices txn.1 (some lot.data.length)
      size := lot.size + 1 }

/-- The account has no more transactions, and the account at its place is a new one. -/
def removeAccount (sender : AccountAddress) (index : ℕ) : ParkingLotIndex :=
  let data := swapRemove lot.data index
  let accountIndices := Function.update lot.accountIndices sender none
  { data := data
    accountIndices :=
      match data[index]? with
      | some (swappedAccount, _) => Function.update accountIndices swappedAccount (some index)
      | none => accountIndices
    size := lot.size }

def remove (txn : TxnPointer) : ParkingLotIndex :=
  match lot.accountIndices txn.1 with
  | some index =>
    match lot.data[index]? with
    | some (account, seqNums) =>
      let size := if txn.2 ∈ seqNums then lot.size - 1 else lot.size
      let seqNums := seqNums.filter (· ≠ txn.2)
      let lot := { lot with data := lot.data.set index (account, seqNums), size := size }
      if seqNums.isEmpty then lot.removeAccount txn.1 index else lot
    | none => lot
  | none => lot

def contains (account : AccountAddress) (seqNum : ℕ) : Bool :=
  ((lot.accountIndices account).bind fun index => lot.data[index]?).any fun entry =>
    entry.2.contains seqNum

/-- The last transaction of an account that is chosen at random. -/
def getPoppable (choice : ℕ) : Option TxnPointer :=
  (lot.data[choice % lot.data.length]?).bind fun entry =>
    entry.2.max?.map fun seqNum => (entry.1, seqNum)

/-! ## What is parked -/

def accounts : List AccountAddress := lot.data.map Prod.fst

/-- The positions are right, and no entry is empty. -/
structure Valid : Prop where
  indices : ∀ account index, lot.accountIndices account = some index ↔
    lot.accounts[index]? = some account
  nonempty : ∀ entry ∈ lot.data, entry.2 ≠ []

def Parked (txn : TxnPointer) : Prop := ∃ seqNums, (txn.1, seqNums) ∈ lot.data ∧ txn.2 ∈ seqNums

variable {lot} {txn : TxnPointer}

theorem Valid.new : ParkingLotIndex.new.Valid :=
  ⟨fun _ _ => by simp [ParkingLotIndex.new, accounts], fun _ h => absurd h List.not_mem_nil⟩

theorem not_parked_new : ¬ ParkingLotIndex.new.Parked txn := by
  rintro ⟨_, h, -⟩
  exact absurd h List.not_mem_nil

/-- The lot with another entry for an account that has one. -/
def withEntry (lot : ParkingLotIndex) (index : ℕ) (account : AccountAddress)
    (seqNums : List ℕ) (size : ℕ) : ParkingLotIndex :=
  { lot with data := lot.data.set index (account, seqNums), size := size }

/-- The lot with an account that had no entry. -/
def withAccount (lot : ParkingLotIndex) (txn : TxnPointer) : ParkingLotIndex where
  data := lot.data ++ [(txn.1, [txn.2])]
  accountIndices := Function.update lot.accountIndices txn.1 (some lot.data.length)
  size := lot.size + 1

section Entry
variable {index : ℕ} {account : AccountAddress} {seqNums : List ℕ}
  (hindex : lot.data[index]? = some (account, seqNums)) (seqNums' : List ℕ) (size : ℕ)
include hindex

theorem accounts_getElem? : lot.accounts[index]? = some account := by
  rw [accounts, List.getElem?_map, hindex]
  rfl

theorem accounts_withEntry :
    (lot.withEntry index account seqNums' size).accounts = lot.accounts := by
  rw [accounts, withEntry, List.map_set, ← accounts]
  refine List.ext_getElem? fun j => ?_
  have haccount := accounts_getElem? hindex
  rw [List.getElem?_set]
  grind

end Entry

namespace Valid
variable (h : lot.Valid)
include h

theorem position_unique {account : AccountAddress} {i j : ℕ} {m n : List ℕ}
    (hi : lot.data[i]? = some (account, m)) (hj : lot.data[j]? = some (account, n)) : i = j := by
  have hi' := (h.indices account i).mpr (accounts_getElem? hi)
  rw [(h.indices account j).mpr (accounts_getElem? hj)] at hi'
  exact (Option.some.inj hi').symm

theorem exists_entry {account : AccountAddress} {index : ℕ}
    (hindex : lot.accountIndices account = some index) :
    ∃ seqNums, lot.data[index]? = some (account, seqNums) := by
  have hget := (h.indices account index).mp hindex
  rw [accounts, List.getElem?_map] at hget
  obtain ⟨⟨_, seqNums⟩, hdata, rfl⟩ := Option.map_eq_some_iff.mp hget
  exact ⟨seqNums, hdata⟩

theorem not_mem_of_none {account : AccountAddress} {seqNums : List ℕ}
    (hnone : lot.accountIndices account = none) : (account, seqNums) ∉ lot.data := by
  intro hmem
  obtain ⟨j, hj⟩ := List.mem_iff_getElem?.mp hmem
  rw [(h.indices account j).mpr (accounts_getElem? hj)] at hnone
  cases hnone

section Entry
variable {index : ℕ} {account : AccountAddress} {seqNums : List ℕ}
  (hindex : lot.data[index]? = some (account, seqNums)) {seqNums' : List ℕ} {size : ℕ}
include hindex

theorem parked_iff {seqNum : ℕ} : lot.Parked (account, seqNum) ↔ seqNum ∈ seqNums := by
  constructor
  · rintro ⟨other, hmem, hin⟩
    obtain ⟨j, hj⟩ := List.mem_iff_getElem?.mp hmem
    obtain rfl := h.position_unique hindex hj
    rw [hindex] at hj
    obtain rfl : seqNums = other := congrArg Prod.snd (Option.some.inj hj)
    exact hin
  · exact fun hin => ⟨seqNums, List.mem_of_getElem? hindex, hin⟩

theorem withEntry (hne : seqNums' ≠ []) : (lot.withEntry index account seqNums' size).Valid := by
  refine ⟨fun a i => ?_, fun entry hentry => ?_⟩
  · rw [accounts_withEntry hindex]
    exact h.indices a i
  · obtain hentry | rfl := List.mem_or_eq_of_mem_set hentry
    · exact h.nonempty entry hentry
    · exact hne

theorem mem_set_iff {entry : AccountAddress × List ℕ} :
    entry ∈ lot.data.set index (account, seqNums') ↔
      entry = (account, seqNums') ∨ (entry ∈ lot.data ∧ entry.1 ≠ account) := by
  obtain ⟨hlt, -⟩ := List.getElem?_eq_some_iff.mp hindex
  simp only [List.mem_iff_getElem?, List.getElem?_set]
  constructor
  · rintro ⟨j, hj⟩
    by_cases heq : index = j
    · grind
    · rw [if_neg heq] at hj
      refine Or.inr ⟨⟨j, hj⟩, fun haccount => heq ?_⟩
      obtain ⟨a, m⟩ := entry
      obtain rfl : a = account := haccount
      exact h.position_unique hindex hj
  · rintro (rfl | ⟨⟨j, hj⟩, hne⟩)
    · exact ⟨index, by grind⟩
    · refine ⟨j, ?_⟩
      have heq : index ≠ j := by
        rintro rfl
        rw [hindex] at hj
        exact hne (congrArg Prod.fst (Option.some.inj hj)).symm
      rw [if_neg heq]
      exact hj

theorem parked_withEntry : (lot.withEntry index account seqNums' size).Parked txn ↔
    if txn.1 = account then txn.2 ∈ seqNums' else lot.Parked txn := by
  unfold Parked ParkingLotIndex.withEntry
  simp only [h.mem_set_iff hindex]
  split <;> grind

/-- The account that was the last one is found at its new position. -/
theorem removeAccount : (lot.removeAccount account index).Valid := by
  have haccount := accounts_getElem? hindex
  have hlt : index < lot.accounts.length := (List.getElem?_eq_some_iff.mp haccount).1
  have hlt' : index < lot.data.length := (List.getElem?_eq_some_iff.mp hindex).1
  have hget := getElem?_swapRemove hlt
  have haccounts : (lot.removeAccount account index).accounts = swapRemove lot.accounts index :=
    map_swapRemove _ _ _
  have hswapped : ((swapRemove lot.data index)[index]?).map Prod.fst =
      (swapRemove lot.accounts index)[index]? := by
    rw [accounts, ← map_swapRemove, List.getElem?_map]
  refine ⟨fun a i => ?_, fun entry hentry => ?_⟩
  · have ha := h.indices a i
    have hlast := h.indices a (lot.accounts.length - 1)
    have hself := h.indices a index
    rw [haccounts, hget]
    rw [hget, if_pos rfl] at hswapped
    unfold ParkingLotIndex.removeAccount
    cases hcase : (swapRemove lot.data index)[index]? with
    | none =>
      rw [hcase] at hswapped
      simp only [hcase, Function.update_apply]
      grind
    | some entry =>
      rw [hcase] at hswapped
      simp only [hcase, Function.update_apply]
      grind
  · exact h.nonempty entry (mem_of_mem_swapRemove hlt' hentry)

theorem parked_removeAccount :
    (lot.removeAccount account index).Parked txn ↔ txn.1 ≠ account ∧ lot.Parked txn := by
  have hlt : index < lot.data.length := (List.getElem?_eq_some_iff.mp hindex).1
  have hmem : ∀ entry, entry ∈ swapRemove lot.data index ↔
      entry ∈ lot.data ∧ entry.1 ≠ account := by
    rintro ⟨a, m⟩
    simp only [List.mem_iff_getElem?, getElem?_swapRemove hlt]
    constructor
    · rintro ⟨j, hj⟩
      have hother : ∃ i ≠ index, lot.data[i]? = some (a, m) := by
        by_cases heq : j = index
        · exact ⟨lot.data.length - 1, by grind, by grind⟩
        · exact ⟨j, heq, by grind⟩
      obtain ⟨i, hne, hi⟩ := hother
      refine ⟨⟨i, hi⟩, ?_⟩
      rintro rfl
      exact hne (h.position_unique hi hindex)
    · rintro ⟨⟨i, hi⟩, hne⟩
      have hlt' : i < lot.data.length := (List.getElem?_eq_some_iff.mp hi).1
      have hother : i ≠ index := by
        rintro rfl
        rw [hindex] at hi
        exact hne (congrArg Prod.fst (Option.some.inj hi)).symm
      by_cases hlast : i + 1 = lot.data.length
      · exact ⟨index, by grind⟩
      · exact ⟨i, by grind⟩
  change (∃ m, (txn.1, m) ∈ swapRemove lot.data index ∧ txn.2 ∈ m) ↔ _
  simp only [hmem]
  unfold Parked
  grind

end Entry

theorem contains_iff : lot.contains txn.1 txn.2 = true ↔ lot.Parked txn := by
  unfold contains
  cases hindex : lot.accountIndices txn.1 with
  | none =>
    simp only [Option.bind_none, Option.any_none, Bool.false_eq_true, false_iff]
    rintro ⟨seqNums, hmem, -⟩
    exact h.not_mem_of_none hindex hmem
  | some index =>
    obtain ⟨seqNums, hdata⟩ := h.exists_entry hindex
    simp only [Option.bind_some, hdata, Option.any_some, List.contains_iff_mem]
    exact (h.parked_iff hdata).symm

theorem insert_cases (txn : TxnPointer) :
    (∃ index seqNums, lot.data[index]? = some (txn.1, seqNums) ∧
      lot.insert txn = lot.withEntry index txn.1 (seqNums.insert txn.2)
        (if txn.2 ∈ seqNums then lot.size else lot.size + 1)) ∨
    lot.accountIndices txn.1 = none ∧ lot.insert txn = lot.withAccount txn := by
  unfold ParkingLotIndex.insert
  cases hindex : lot.accountIndices txn.1 with
  | some index =>
    obtain ⟨seqNums, hdata⟩ := h.exists_entry hindex
    refine Or.inl ⟨index, seqNums, hdata, ?_⟩
    simp only [hdata, ParkingLotIndex.withEntry]
  | none => exact Or.inr ⟨rfl, rfl⟩

theorem insert : (lot.insert txn).Valid := by
  obtain ⟨index, seqNums, hdata, heq⟩ | ⟨hindex, heq⟩ := h.insert_cases txn
  · rw [heq]
    exact h.withEntry hdata (List.ne_nil_of_mem (List.mem_insert_iff.mpr (Or.inl rfl)))
  · rw [heq]
    refine ⟨fun a i => ?_, fun entry hentry => ?_⟩
    · have hiff := h.indices a i
      have hlength : lot.accounts.length = lot.data.length := List.length_map _
      simp only [accounts, withAccount, List.map_append, List.map_cons, List.map_nil,
        Function.update_apply]
      rw [← accounts]
      grind
    · obtain hentry | hentry := List.mem_append.mp hentry
      · exact h.nonempty entry hentry
      · obtain rfl := List.mem_singleton.mp hentry
        exact List.cons_ne_nil _ _

theorem parked_insert {q : TxnPointer} :
    (lot.insert txn).Parked q ↔ q = txn ∨ lot.Parked q := by
  obtain ⟨account, seqNum⟩ := q
  obtain ⟨index, seqNums, hdata, heq⟩ | ⟨hindex, heq⟩ := h.insert_cases txn
  · rw [heq, h.parked_withEntry hdata]
    split
    next heq =>
      obtain rfl : account = txn.1 := heq
      rw [h.parked_iff hdata, List.mem_insert_iff]
      simp only [Prod.ext_iff, true_and]
    next hne => grind
  · rw [heq]
    simp only [Parked, withAccount, List.mem_append, List.mem_singleton]
    constructor
    · rintro ⟨seqNums, hmem | heq, hin⟩
      · exact Or.inr ⟨seqNums, hmem, hin⟩
      · obtain ⟨haccount, rfl⟩ := Prod.mk.inj heq
        exact Or.inl (Prod.ext haccount (List.mem_singleton.mp hin))
    · rintro (rfl | ⟨seqNums, hmem, hin⟩)
      · exact ⟨[seqNum], Or.inr rfl, List.mem_singleton_self _⟩
      · exact ⟨seqNums, Or.inl hmem, hin⟩

omit h in
theorem removeAccount_withEntry {index : ℕ} {account : AccountAddress} {seqNums : List ℕ}
    (hindex : lot.data[index]? = some (account, seqNums)) (seqNums' : List ℕ) (size : ℕ) :
    (lot.withEntry index account seqNums' size).removeAccount account index =
      { lot.removeAccount account index with size := size } := by
  have hlt : index < lot.data.length := (List.getElem?_eq_some_iff.mp hindex).1
  simp only [ParkingLotIndex.removeAccount, ParkingLotIndex.withEntry, swapRemove_set hlt]

/-- A removal changes the entry of the account, or takes out the account with its entry. -/
theorem remove_cases (txn : TxnPointer) :
    lot.accountIndices txn.1 = none ∧ lot.remove txn = lot ∨
    ∃ index seqNums, lot.data[index]? = some (txn.1, seqNums) ∧
      (seqNums.filter (· ≠ txn.2) = [] ∧
        lot.remove txn = { lot.removeAccount txn.1 index with
          size := if txn.2 ∈ seqNums then lot.size - 1 else lot.size } ∨
      seqNums.filter (· ≠ txn.2) ≠ [] ∧
        lot.remove txn = lot.withEntry index txn.1 (seqNums.filter (· ≠ txn.2))
          (if txn.2 ∈ seqNums then lot.size - 1 else lot.size)) := by
  unfold ParkingLotIndex.remove
  cases hindex : lot.accountIndices txn.1 with
  | none => exact Or.inl ⟨rfl, rfl⟩
  | some index =>
    obtain ⟨seqNums, hdata⟩ := h.exists_entry hindex
    refine Or.inr ⟨index, seqNums, hdata, ?_⟩
    simp only [hdata]
    rw [← ParkingLotIndex.withEntry, removeAccount_withEntry hdata]
    split
    next hempty => exact Or.inl ⟨List.isEmpty_iff.mp hempty, rfl⟩
    next hne => exact Or.inr ⟨fun hempty => hne (List.isEmpty_iff.mpr hempty), rfl⟩

theorem remove : (lot.remove txn).Valid := by
  obtain ⟨-, heq⟩ | ⟨index, seqNums, hdata, ⟨-, heq⟩ | ⟨hne, heq⟩⟩ := h.remove_cases txn
  · rw [heq]
    exact h
  · rw [heq]
    exact ⟨(h.removeAccount hdata).indices, (h.removeAccount hdata).nonempty⟩
  · rw [heq]
    exact h.withEntry hdata hne

theorem parked_remove {q : TxnPointer} :
    (lot.remove txn).Parked q ↔ q ≠ txn ∧ lot.Parked q := by
  obtain ⟨account, seqNum⟩ := q
  obtain ⟨hindex, heq⟩ | ⟨index, seqNums, hdata, hcases⟩ := h.remove_cases txn
  · rw [heq]
    refine ⟨fun hparked => ⟨?_, hparked⟩, And.right⟩
    rintro rfl
    obtain ⟨seqNums, hmem, -⟩ := hparked
    exact h.not_mem_of_none hindex hmem
  · have hparked : lot.Parked (txn.1, seqNum) ↔ seqNum ∈ seqNums := h.parked_iff hdata
    obtain ⟨hempty, heq⟩ | ⟨-, heq⟩ := hcases
    · rw [heq]
      refine (h.parked_removeAccount hdata).trans ?_
      rw [List.filter_eq_nil_iff] at hempty
      grind
    · rw [heq, h.parked_withEntry hdata]
      split
      next heq =>
        obtain rfl : account = txn.1 := heq
        rw [hparked]
        grind
      next hne => grind

end Valid

/-! ## The number of entries -/

theorem sum_set {l : List ℕ} {index x : ℕ} (h : l[index]? = some x) (y : ℕ) :
    (l.set index y).sum + x = l.sum + y := by
  induction l generalizing index with
  | nil => cases h
  | cons first rest ih =>
    cases index with
    | zero =>
      obtain rfl : first = x := Option.some.inj h
      rw [List.set_cons_zero, List.sum_cons, List.sum_cons]
      omega
    | succ index =>
      have hrest := ih h
      rw [List.set_cons_succ, List.sum_cons, List.sum_cons]
      omega

theorem sum_swapRemove {l : List ℕ} {index x : ℕ} (h : l[index]? = some x) :
    (swapRemove l index).sum + x = l.sum := by
  unfold swapRemove
  cases hlast : l.getLast? with
  | none =>
    rw [List.getLast?_eq_none_iff.mp hlast] at h
    cases h
  | some last =>
    have hset := sum_set h last
    have hend : (l.set index last).getLast? = some last := by
      rw [List.getLast?_eq_getElem?] at hlast ⊢
      rw [List.length_set, List.getElem?_set]
      grind
    rw [← List.dropLast_append_getLast? last hend, List.sum_append, List.sum_singleton] at hset
    dsimp only
    omega

def entries (lot : ParkingLotIndex) : ℕ := (lot.data.map fun entry => entry.2.length).sum

theorem lengths_getElem? {index : ℕ} {account : AccountAddress} {seqNums : List ℕ}
    (hindex : lot.data[index]? = some (account, seqNums)) :
    (lot.data.map fun entry => entry.2.length)[index]? = some seqNums.length := by
  rw [List.getElem?_map, hindex]
  rfl

/-- The counter is right, and a sequence number is listed once. -/
structure Counted (lot : ParkingLotIndex) : Prop where
  nodup : ∀ entry ∈ lot.data, entry.2.Nodup
  size : lot.size = lot.entries

namespace Counted
variable (hcounted : lot.Counted) (h : lot.Valid)
include hcounted h

omit h in
theorem withEntry {index : ℕ} {account : AccountAddress} {seqNums seqNums' : List ℕ} {size : ℕ}
    (hdata : lot.data[index]? = some (account, seqNums)) (hnodup : seqNums'.Nodup)
    (hsize : size + seqNums.length = lot.size + seqNums'.length) :
    (lot.withEntry index account seqNums' size).Counted := by
  refine ⟨fun entry hentry => ?_, ?_⟩
  · obtain hentry | rfl := List.mem_or_eq_of_mem_set hentry
    · exact hcounted.nodup entry hentry
    · exact hnodup
  · have hsum := sum_set (lengths_getElem? hdata) seqNums'.length
    rw [hcounted.size, entries] at hsize
    rw [entries, ParkingLotIndex.withEntry, List.map_set]
    dsimp only
    omega

theorem insert : (lot.insert txn).Counted := by
  obtain ⟨index, seqNums, hdata, heq⟩ | ⟨-, heq⟩ := h.insert_cases txn
  · rw [heq]
    refine hcounted.withEntry hdata (hcounted.nodup _ (List.mem_of_getElem? hdata)).insert ?_
    split
    next hmem => rw [List.insert_of_mem hmem]
    next hmem =>
      rw [List.insert_of_not_mem hmem, List.length_cons]
      omega
  · rw [heq]
    refine ⟨fun entry hentry => ?_, ?_⟩
    · obtain hentry | hentry := List.mem_append.mp hentry
      · exact hcounted.nodup entry hentry
      · rw [List.mem_singleton.mp hentry]
        exact List.nodup_singleton _
    · simp only [entries, withAccount, List.map_append, List.map_cons, List.map_nil,
        List.sum_append, List.sum_singleton, List.length_singleton]
      rw [hcounted.size, entries]

omit h in
/-- The counter and the entry lose the same. -/
theorem size_filter {index : ℕ} {seqNums : List ℕ}
    (hdata : lot.data[index]? = some (txn.1, seqNums)) :
    (if txn.2 ∈ seqNums then lot.size - 1 else lot.size) + seqNums.length =
      lot.size + (seqNums.filter (· ≠ txn.2)).length := by
  have hnodup : seqNums.Nodup := hcounted.nodup _ (List.mem_of_getElem? hdata)
  have hfilter : seqNums.filter (· ≠ txn.2) = seqNums.erase txn.2 := by
    rw [hnodup.erase_eq_filter]
    exact List.filter_congr fun x _ => Bool.eq_iff_iff.mpr (by simp)
  rw [hfilter]
  split
  next hmem =>
    have hpos := List.length_pos_of_mem hmem
    have hzero := sum_set (lengths_getElem? hdata) 0
    have hsize := hcounted.size
    rw [entries] at hsize
    rw [List.length_erase_of_mem hmem]
    omega
  next hmem => rw [List.erase_of_not_mem hmem]

theorem remove : (lot.remove txn).Counted := by
  obtain ⟨-, heq⟩ | ⟨index, seqNums, hdata, hcases⟩ := h.remove_cases txn
  · rw [heq]
    exact hcounted
  · have hcount := hcounted.size_filter hdata
    obtain ⟨hempty, heq⟩ | ⟨-, heq⟩ := hcases
    · rw [heq]
      have hsize := hcounted.size
      have hswap := sum_swapRemove (lengths_getElem? hdata)
      rw [hempty, List.length_nil] at hcount
      rw [entries] at hsize
      rw [← map_swapRemove] at hswap
      refine ⟨fun entry hentry => hcounted.nodup entry ?_, ?_⟩
      · exact mem_of_mem_swapRemove (List.getElem?_eq_some_iff.mp hdata).1 hentry
      · change (if txn.2 ∈ seqNums then lot.size - 1 else lot.size) =
          ((swapRemove lot.data index).map fun entry => entry.2.length).sum
        omega
    · rw [heq]
      exact hcounted.withEntry hdata
        ((hcounted.nodup _ (List.mem_of_getElem? hdata)).filter _) hcount

end Counted

/-! ## Runs of calls -/

inductive Call
  | insert (txn : TxnPointer)
  | remove (txn : TxnPointer)

def call (lot : ParkingLotIndex) : Call → ParkingLotIndex
  | .insert txn => lot.insert txn
  | .remove txn => lot.remove txn

def run (calls : List Call) : ParkingLotIndex := calls.foldl call new

/-- What is parked, as a set. -/
def Call.apply (parked : Set TxnPointer) : Call → Set TxnPointer
  | .insert txn => {q | q = txn ∨ q ∈ parked}
  | .remove txn => {q | q ≠ txn ∧ q ∈ parked}

def parkedAfter (calls : List Call) : Set TxnPointer := calls.foldl Call.apply ∅

/-- The lot is in order and has the entries of a set. -/
structure Represents (lot : ParkingLotIndex) (parked : Set TxnPointer) : Prop where
  valid : lot.Valid
  counted : lot.Counted
  parked_iff : ∀ txn, lot.Parked txn ↔ txn ∈ parked

theorem Represents.call {parked : Set TxnPointer} (h : lot.Represents parked) (c : Call) :
    (lot.call c).Represents (c.apply parked) := by
  cases c with
  | insert txn =>
    refine ⟨h.valid.insert, h.counted.insert h.valid, fun q => ?_⟩
    exact h.valid.parked_insert.trans (or_congr_right (h.parked_iff q))
  | remove txn =>
    refine ⟨h.valid.remove, h.counted.remove h.valid, fun q => ?_⟩
    exact h.valid.parked_remove.trans (and_congr_right fun _ => h.parked_iff q)

theorem represents_run (calls : List Call) : (run calls).Represents (parkedAfter calls) := by
  suffices hfrom : ∀ (lot : ParkingLotIndex) parked, lot.Represents parked →
      (calls.foldl ParkingLotIndex.call lot).Represents (calls.foldl Call.apply parked) by
    refine hfrom new ∅ ⟨.new, ⟨fun _ h => absurd h List.not_mem_nil, rfl⟩, fun txn => ?_⟩
    exact iff_of_false not_parked_new id
  induction calls with
  | nil => exact fun _ _ h => h
  | cons c calls ih => exact fun _ _ h => ih _ _ (h.call c)

/-- Every account with an entry has one place, its position is known, and the counter is right. -/
theorem run_representation (calls : List Call) :
    (∀ account index, (run calls).accountIndices account = some index ↔
      ∃ seqNums, (run calls).data[index]? = some (account, seqNums)) ∧
    ((run calls).data.map Prod.fst).Nodup ∧
    (∀ account, account ∈ (run calls).data.map Prod.fst ↔
      ∃ seqNum, (account, seqNum) ∈ parkedAfter calls) ∧
    (∀ entry ∈ (run calls).data, entry.2 ≠ [] ∧ entry.2.Nodup ∧
      ∀ seqNum, seqNum ∈ entry.2 ↔ (entry.1, seqNum) ∈ parkedAfter calls) ∧
    (run calls).size = ((run calls).data.map fun entry => entry.2.length).sum ∧
    ∀ txn ∈ parkedAfter calls, 0 < (run calls).size := by
  obtain ⟨hvalid, hcounted, hparked⟩ := represents_run calls
  generalize run calls = lot at *
  have hentry : ∀ entry ∈ lot.data, ∀ seqNum, seqNum ∈ entry.2 ↔
      (entry.1, seqNum) ∈ parkedAfter calls := by
    intro entry hmem seqNum
    obtain ⟨index, hindex⟩ := List.mem_iff_getElem?.mp hmem
    rw [← hparked, hvalid.parked_iff hindex]
  refine ⟨fun account index => ⟨hvalid.exists_entry, ?_⟩, ?nodup, fun account => ?accounts,
    fun entry hmem => ⟨hvalid.nonempty entry hmem, hcounted.nodup entry hmem, hentry entry hmem⟩,
    hcounted.size, fun txn htxn => ?pos⟩
  · rintro ⟨seqNums, hdata⟩
    exact (hvalid.indices account index).mpr (accounts_getElem? hdata)
  case nodup =>
    refine List.nodup_iff_getElem?_ne_getElem?.mpr fun i j hij hj heq => ?_
    have hget : lot.accounts[j]? = some lot.accounts[j] := List.getElem?_eq_getElem hj
    have hi := (hvalid.indices _ i).mpr (heq.trans hget)
    have hj := (hvalid.indices _ j).mpr hget
    rw [hi] at hj
    exact hij.ne (Option.some.inj hj)
  case accounts =>
    constructor
    · intro haccount
      obtain ⟨entry, hmem, rfl⟩ := List.mem_map.mp haccount
      obtain ⟨seqNum, hin⟩ := List.exists_mem_of_ne_nil _ (hvalid.nonempty entry hmem)
      exact ⟨seqNum, (hentry entry hmem seqNum).mp hin⟩
    · rintro ⟨seqNum, hin⟩
      obtain ⟨seqNums, hmem, -⟩ := (hparked _).mpr hin
      exact List.mem_map_of_mem hmem
  case pos =>
    obtain ⟨seqNums, hmem, hin⟩ := (hparked txn).mpr htxn
    obtain ⟨index, hindex⟩ := List.mem_iff_getElem?.mp hmem
    have hzero := sum_set (lengths_getElem? hindex) 0
    have hpos := List.length_pos_of_mem hin
    rw [hcounted.size, entries]
    omega

/-! ## Eviction -/

theorem getPoppable_parked {choice : ℕ} (h : lot.getPoppable choice = some txn) :
    lot.Parked txn := by
  obtain ⟨entry, hentry, hmax⟩ := Option.bind_eq_some_iff.mp h
  obtain ⟨seqNum, hseqNum, rfl⟩ := Option.map_eq_some_iff.mp hmax
  exact ⟨entry.2, List.mem_of_getElem? hentry, List.max?_mem hseqNum⟩

theorem Valid.exists_getPoppable (h : lot.Valid) (hparked : lot.Parked txn) (choice : ℕ) :
    ∃ q, lot.getPoppable choice = some q := by
  obtain ⟨seqNums, hmem, -⟩ := hparked
  have hlt : choice % lot.data.length < lot.data.length :=
    Nat.mod_lt _ (List.length_pos_of_mem hmem)
  have hne := h.nonempty _ (List.getElem_mem hlt)
  obtain ⟨m, hm⟩ := Option.isSome_iff_exists.mp (List.isSome_max?_iff.mpr hne)
  refine ⟨(lot.data[choice % lot.data.length].1, m), ?_⟩
  unfold getPoppable
  rw [List.getElem?_eq_getElem hlt, Option.bind_some, hm]
  rfl

/-- The index answers as the set of the parked transactions does. What is evicted is the last parked
transaction of its account. -/
theorem run_answers (calls : List Call) :
    (∀ txn : TxnPointer, (run calls).contains txn.1 txn.2 = true ↔ txn ∈ parkedAfter calls) ∧
    ∀ choice, ((run calls).getPoppable choice = none ↔ ∀ txn, txn ∉ parkedAfter calls) ∧
      ∀ txn ∈ (run calls).getPoppable choice, txn ∈ parkedAfter calls ∧
        ∀ seqNum, (txn.1, seqNum) ∈ parkedAfter calls → seqNum ≤ txn.2 := by
  obtain ⟨hvalid, -, hparked⟩ := represents_run calls
  refine ⟨fun txn => hvalid.contains_iff.trans (hparked txn), fun choice => ⟨?_, ?_⟩⟩
  · refine ⟨fun hnone txn htxn => ?_, fun hempty => ?_⟩
    · obtain ⟨q, hq⟩ := hvalid.exists_getPoppable ((hparked txn).mpr htxn) choice
      cases hnone.symm.trans hq
    · refine Option.eq_none_iff_forall_not_mem.mpr fun txn htxn => ?_
      exact hempty txn ((hparked txn).mp (getPoppable_parked htxn))
  · intro txn htxn
    refine ⟨(hparked txn).mp (getPoppable_parked htxn), fun seqNum hin => ?_⟩
    obtain ⟨entry, hentry, hmax⟩ := Option.bind_eq_some_iff.mp htxn
    obtain ⟨last, hlast, rfl⟩ := Option.map_eq_some_iff.mp hmax
    have hmem := (hvalid.parked_iff hentry).mp ((hparked _).mpr hin)
    exact (List.max?_eq_some_iff.mp hlast).2 seqNum hmem

end ParkingLotIndex

end Anthemius.Mempool

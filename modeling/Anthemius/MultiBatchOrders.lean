import Anthemius.PeerBroadcasts

/-!
# The order of batches

Batches with the same buckets are compared as a linear order does, and a later range is greater. A
map of such batches is a list in ascending order.
-/
namespace Anthemius.Mempool

/-! ## The order of batches -/

namespace MultiBatchId

instance : Std.TransCmp cmpPair :=
  inferInstanceAs (Std.TransCmp (compareLex (compareOn Prod.fst) (compareOn Prod.snd)))

instance : Std.LawfulEqCmp cmpPair where
  eq_of_compare {a b} h := by
    obtain ⟨hfirst, hsecond⟩ := Ordering.then_eq_eq.mp h
    exact Prod.ext (Nat.compare_eq_eq.mp hfirst) (Nat.compare_eq_eq.mp hsecond)

theorem cmpPairs_eq {as bs : List (ℕ × ℕ)} (h : as.length = bs.length) :
    cmpPairs as bs = List.compareLex cmpPair as bs := by
  induction as generalizing bs with
  | nil => rw [List.length_eq_zero_iff.mp h.symm]; rfl
  | cons a as ih =>
    cases bs with
    | nil => cases h
    | cons b bs => rw [cmpPairs, List.compareLex_cons_cons, ih (Nat.succ.inj h)]

variable {a b c : MultiBatchId}

/-- Between batches with the same buckets the comparison is a linear order. -/
theorem cmp_eq (h : a.length = b.length) :
    cmp a b = List.compareLex cmpPair a.reverse b.reverse :=
  cmpPairs_eq (by rw [List.length_reverse, List.length_reverse, h])

theorem cmp_eq_eq (h : a.length = b.length) : cmp a b = .eq ↔ a = b := by
  rw [cmp_eq h, Std.LawfulEqCmp.compare_eq_iff_eq, List.reverse_inj]

theorem cmp_eq_gt (h : a.length = b.length) : cmp a b = .gt ↔ cmp b a = .lt := by
  rw [cmp_eq h, cmp_eq h.symm]
  exact Std.OrientedCmp.gt_iff_lt

theorem cmp_lt_trans (hlength : a.length = b.length) (hlength' : b.length = c.length)
    (hab : cmp a b = .lt) (hbc : cmp b c = .lt) : cmp a c = .lt := by
  rw [cmp_eq hlength] at hab
  rw [cmp_eq hlength'] at hbc
  rw [cmp_eq (hlength.trans hlength')]
  exact Std.TransCmp.lt_trans hab hbc

/-- A later range is greater, unless the earlier one is empty in every bucket. -/
theorem cmpPairs_lt {as bs : List (ℕ × ℕ)}
    (h : List.Forall₂ (fun a b => a.1 ≤ a.2 ∧ a.2 ≤ b.1 ∧ b.1 ≤ b.2) as bs)
    (hsome : ∃ a ∈ as, a.1 < a.2) : cmpPairs as bs = .lt := by
  induction h with
  | nil =>
    obtain ⟨a, ha, -⟩ := hsome
    cases ha
  | @cons a b as bs hhead _ ih =>
    have hends := hhead.2.1.trans hhead.2.2
    obtain hlt | heq := Nat.lt_or_eq_of_le (hhead.1.trans hhead.2.1)
    · rw [cmpPairs, cmpPair, Nat.compare_eq_lt.mpr hlt]
      rfl
    · have hempty : a.2 = a.1 := by omega
      obtain hlt | heq' := Nat.lt_or_eq_of_le hends
      · rw [cmpPairs, cmpPair, Nat.compare_eq_eq.mpr heq, Nat.compare_eq_lt.mpr hlt]
        rfl
      · rw [cmpPairs, cmpPair, Nat.compare_eq_eq.mpr heq, Nat.compare_eq_eq.mpr heq']
        obtain ⟨r, hr, hlt⟩ := hsome
        obtain rfl | hr := List.mem_cons.mp hr
        · exact absurd hempty (Nat.ne_of_gt hlt)
        · exact ih ⟨r, hr, hlt⟩

/-! ## Maps of batches -/

/-- The batches of a map have the same buckets and are in ascending order. -/
structure Ascending {V : Type} (buckets : ℕ) (entries : List (MultiBatchId × V)) : Prop where
  length : ∀ entry ∈ entries, entry.1.length = buckets
  ordered : entries.Pairwise fun a b => cmp a.1 b.1 = .lt

section Entries
variable {V : Type} {buckets : ℕ} {entries rest : List (MultiBatchId × V)} {id : MultiBatchId}
  {value : V}

theorem Ascending.nil : Ascending buckets ([] : List (MultiBatchId × V)) :=
  ⟨fun _ h => absurd h List.not_mem_nil, .nil⟩

theorem Ascending.sublist (h : Ascending buckets entries) (hrest : rest.Sublist entries) :
    Ascending buckets rest :=
  ⟨fun entry hentry => h.length entry (hrest.subset hentry), h.ordered.sublist hrest⟩

theorem Ascending.mem_insertEntry (h : Ascending buckets entries) (hid : id.length = buckets)
    {entry : MultiBatchId × V} :
    entry ∈ insertEntry id value entries ↔
      entry = (id, value) ∨ entry ∈ entries ∧ entry.1 ≠ id := by
  induction entries with
  | nil => simp [insertEntry]
  | cons first rest ih =>
    have hlength : id.length = first.1.length := hid.trans (h.length first List.mem_cons_self).symm
    have hrest := h.sublist (List.sublist_cons_self first rest)
    have hfirst := (List.pairwise_cons.mp h.ordered).1
    have hne : ∀ {key : MultiBatchId}, cmp key key ≠ .lt := by
      intro key hlt
      rw [(cmp_eq_eq rfl).mpr rfl] at hlt
      cases hlt
    rw [insertEntry]
    cases hcmp : cmp id first.1 with
    | lt =>
      -- all keys of the map are greater
      have hkeys : ∀ entry ∈ first :: rest, entry.1 ≠ id := by
        rintro other hother rfl
        obtain rfl | hother := List.mem_cons.mp hother
        · exact hne hcmp
        · have hback := hfirst other hother
          rw [← cmp_eq_gt hlength, hcmp] at hback
          cases hback
      rw [List.mem_cons]
      exact or_congr_right (and_iff_left_of_imp (hkeys entry)).symm
    | eq =>
      obtain rfl := (cmp_eq_eq hlength).mp hcmp
      have hkeys : ∀ entry ∈ rest, entry.1 ≠ first.1 := by
        intro other hother heq
        exact hne (heq ▸ hfirst other hother)
      rw [List.mem_cons, List.mem_cons, or_and_right]
      refine or_congr_right ⟨fun hentry => Or.inr ⟨hentry, hkeys entry hentry⟩, ?_⟩
      rintro (⟨rfl, hself⟩ | ⟨hentry, -⟩)
      · exact absurd rfl hself
      · exact hentry
    | gt =>
      have hfar : first.1 ≠ id := by
        rintro rfl
        rw [(cmp_eq_eq rfl).mpr rfl] at hcmp
        cases hcmp
      rw [List.mem_cons, ih hrest, List.mem_cons, or_and_right, or_left_comm]
      refine or_congr_right (or_congr_left ⟨fun heq => ⟨heq, heq ▸ hfar⟩, And.left⟩)

theorem Ascending.insertEntry (h : Ascending buckets entries) (hid : id.length = buckets) :
    Ascending buckets (insertEntry id value entries) := by
  refine ⟨fun entry hentry => ?_, ?_⟩
  · obtain rfl | ⟨hentry, -⟩ := (h.mem_insertEntry hid).mp hentry
    · exact hid
    · exact h.length entry hentry
  induction entries with
  | nil => exact List.pairwise_singleton _ _
  | cons first rest ih =>
    have hlength : id.length = first.1.length := hid.trans (h.length first List.mem_cons_self).symm
    have hrest := h.sublist (List.sublist_cons_self first rest)
    obtain ⟨hfirst, hordered⟩ := List.pairwise_cons.mp h.ordered
    rw [MultiBatchId.insertEntry]
    cases hcmp : cmp id first.1 with
    | lt =>
      refine List.pairwise_cons.mpr ⟨fun entry hentry => ?_, h.ordered⟩
      obtain rfl | hentry := List.mem_cons.mp hentry
      · exact hcmp
      · have hsame := h.length entry (List.mem_cons_of_mem _ hentry)
        exact cmp_lt_trans hlength ((hlength.symm.trans hid).trans hsame.symm) hcmp
          (hfirst entry hentry)
    | eq => exact List.pairwise_cons.mpr ⟨hfirst, hordered⟩
    | gt =>
      refine List.pairwise_cons.mpr ⟨fun entry hentry => ?_, ih hrest⟩
      obtain rfl | ⟨hentry, -⟩ := (hrest.mem_insertEntry hid).mp hentry
      · exact (cmp_eq_gt hlength).mp hcmp
      · exact hfirst entry hentry

theorem Ascending.exists_insertEntry (h : Ascending buckets entries) (hid : id.length = buckets)
    {other : MultiBatchId} :
    (∃ entry ∈ MultiBatchId.insertEntry id value entries, entry.1 = other) ↔
      other = id ∨ ∃ entry ∈ entries, entry.1 = other := by
  constructor
  · rintro ⟨entry, hentry, rfl⟩
    obtain rfl | ⟨hentry, -⟩ := (h.mem_insertEntry hid).mp hentry
    · exact Or.inl rfl
    · exact Or.inr ⟨entry, hentry, rfl⟩
  · intro hother
    by_cases hsame : other = id
    · exact ⟨(id, value), (h.mem_insertEntry hid).mpr (Or.inl rfl), hsame.symm⟩
    · obtain ⟨entry, hentry, rfl⟩ := hother.resolve_left hsame
      exact ⟨entry, (h.mem_insertEntry hid).mpr (Or.inr ⟨hentry, hsame⟩), rfl⟩

theorem exists_of_removeEntry (h : removeEntry id entries = some (value, rest)) :
    ∃ key before after, cmp id key = .eq ∧ entries = before ++ (key, value) :: after ∧
      rest = before ++ after := by
  induction entries generalizing rest with
  | nil => cases h
  | cons first others ih =>
    rw [removeEntry] at h
    cases hcmp : cmp id first.1 with
    | lt =>
      rw [hcmp] at h
      cases h
    | eq =>
      rw [hcmp] at h
      cases h
      exact ⟨first.1, [], others, hcmp, rfl, rfl⟩
    | gt =>
      rw [hcmp] at h
      obtain ⟨⟨_, remaining⟩, hfound, heq⟩ := Option.map_eq_some_iff.mp h
      cases heq
      obtain ⟨key, before, after, hkey, rfl, rfl⟩ := ih hfound
      exact ⟨key, first :: before, after, hkey, rfl, rfl⟩

theorem Ascending.removeEntry (h : Ascending buckets entries) (hid : id.length = buckets)
    (hremove : removeEntry id entries = some (value, rest)) :
    (id, value) ∈ entries ∧ rest.Sublist entries ∧ ∀ other,
      (∃ entry ∈ entries, entry.1 = other) → other = id ∨ ∃ entry ∈ rest, entry.1 = other := by
  obtain ⟨key, before, after, hcmp, rfl, rfl⟩ := exists_of_removeEntry hremove
  have hmem : (key, value) ∈ before ++ (key, value) :: after :=
    List.mem_append_right _ List.mem_cons_self
  obtain rfl := (cmp_eq_eq (hid.trans (h.length _ hmem).symm)).mp hcmp
  refine ⟨hmem, (List.Sublist.refl before).append (List.sublist_cons_self _ after), ?_⟩
  rintro other ⟨entry, hentry, rfl⟩
  obtain hentry | hentry := List.mem_append.mp hentry
  · exact Or.inr ⟨entry, List.mem_append_left _ hentry, rfl⟩
  · obtain rfl | hentry := List.mem_cons.mp hentry
    · exact Or.inl rfl
    · exact Or.inr ⟨entry, List.mem_append_right _ hentry, rfl⟩

/-- The greatest of some batches, if there are any. -/
def Greatest (batches : MultiBatchId → Prop) : Option MultiBatchId → Prop
  | some id => batches id ∧ ∀ other, batches other → other = id ∨ cmp other id = .lt
  | none => ∀ other, ¬ batches other

theorem Ascending.greatest (h : Ascending buckets entries) :
    Greatest (fun id => ∃ entry ∈ entries, entry.1 = id) (entries.getLast?.map Prod.fst) := by
  cases hlast : entries.getLast? with
  | none =>
    rintro other ⟨entry, hentry, -⟩
    rw [List.getLast?_eq_none_iff.mp hlast] at hentry
    cases hentry
  | some last =>
    obtain ⟨before, rfl⟩ := List.getLast?_eq_some_iff.mp hlast
    refine ⟨⟨last, List.mem_append_right _ List.mem_cons_self, rfl⟩, ?_⟩
    rintro other ⟨entry, hentry, rfl⟩
    obtain hentry | hentry := List.mem_append.mp hentry
    · exact Or.inr ((List.pairwise_append.mp h.ordered).2.2 entry hentry last List.mem_cons_self)
    · rw [List.mem_singleton.mp hentry]
      exact Or.inl rfl

theorem le_trans_cmp (hlength : a.length = b.length) (hlength' : b.length = c.length)
    (hab : a = b ∨ cmp a b = .lt) (hbc : b = c ∨ cmp b c = .lt) : a = c ∨ cmp a c = .lt := by
  obtain rfl | hab := hab
  · exact hbc
  · obtain rfl | hbc := hbc
    · exact Or.inr hab
    · exact Or.inr (cmp_lt_trans hlength hlength' hab hbc)

theorem Greatest.maxOption {first second : MultiBatchId → Prop} {x y : Option MultiBatchId}
    (hfirst : Greatest first x) (hsecond : Greatest second y)
    (hlength : ∀ id, first id → id.length = buckets)
    (hlength' : ∀ id, second id → id.length = buckets) :
    Greatest (fun id => first id ∨ second id) (maxOption x y) := by
  cases x with
  | none =>
    have hnone : ∀ id, first id ∨ second id → second id :=
      fun id hid => hid.resolve_left (hfirst id)
    cases y with
    | none => exact fun other hother => hsecond other (hnone other hother)
    | some b => exact ⟨Or.inr hsecond.1, fun other hother => hsecond.2 other (hnone other hother)⟩
  | some a =>
    cases y with
    | none =>
      refine ⟨Or.inl hfirst.1, fun other hother => hfirst.2 other ?_⟩
      exact hother.resolve_right (hsecond other)
    | some b =>
      have ha := hlength a hfirst.1
      have hb := hlength' b hsecond.1
      rw [MultiBatchId.maxOption]
      by_cases hgt : cmp a b = .gt
      · rw [if_pos hgt]
        refine ⟨Or.inl hfirst.1, ?_⟩
        rintro other (hother | hother)
        · exact hfirst.2 other hother
        · exact le_trans_cmp ((hlength' other hother).trans hb.symm) (hb.trans ha.symm)
            (hsecond.2 other hother) (Or.inr ((cmp_eq_gt (ha.trans hb.symm)).mp hgt))
      · rw [if_neg hgt]
        have hle : a = b ∨ cmp a b = .lt := by
          cases hcmp : cmp a b with
          | lt => exact Or.inr rfl
          | eq => exact Or.inl ((cmp_eq_eq (ha.trans hb.symm)).mp hcmp)
          | gt => exact absurd hcmp hgt
        refine ⟨Or.inr hsecond.1, ?_⟩
        rintro other (hother | hother)
        · exact le_trans_cmp ((hlength other hother).trans ha.symm) (ha.trans hb.symm)
            (hfirst.2 other hother) hle
        · exact hsecond.2 other hother

end Entries

end MultiBatchId

end Anthemius.Mempool

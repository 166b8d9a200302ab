import Anthemius.DependencyCompleteness
import Anthemius.FillerLimits

/-! An edge of the filler leads to a transaction that touched some bytes which the later one
looks up. The bytes of a key say neither whose account nor which table it belongs to, and the
bytes of a sender may be those of a key, so the two need not have a key in common. -/
namespace Anthemius
open CheckedLoops LittleEndianBytes

variable {T : Type}

namespace Candidate

/-- The later transaction looks up bytes that the earlier one touches. -/
def Meets (a b : Candidate T) : Prop := ∃ k ∈ a.touched, k ∈ b.consulted

/-- The two have the same sender, or the earlier writes a key that the later reads. -/
def Shares (a b : Candidate T) : Prop := a.sender = b.sender ∨ ∃ key ∈ a.writeSet, key ∈ b.readSet

instance (a b : Candidate T) : Decidable (a.Meets b) := inferInstanceAs (Decidable (∃ k ∈ _, _))

instance (a b : Candidate T) : Decidable (a.Shares b) := inferInstanceAs (Decidable (_ ∨ _))

end Candidate

namespace DependencyFiller

/-- All edges come from shared keys or senders. -/
def Precise (f : DependencyFiller T) : Prop :=
  ∀ i j, i ∈ f.parents j → ∃ p q, f.accepted[i]? = some p ∧ f.accepted[j]? = some q ∧
    p.1.Shares q.1

/-- All edges come from bytes that both transactions use. -/
def Explained (f : DependencyFiller T) : Prop :=
  ∀ i j, i ∈ f.parents j → ∃ k, f.Touches k i ∧ f.Consults k j

end DependencyFiller

namespace Fill
variable {goodBlock : Bool} {c : Candidate T} {s s' : Fill T}

theorem Step.explained (h : Step goodBlock c s s') (ht : s.filler.Tracks s.lastTouched)
    (hr : s.filler.Recalls s.lastTouched) (he : s.filler.Explained) : s'.filler.Explained := by
  cases h with
  | full | user | skip | exceeds => exact he
  | accept scan hfull _ hscan =>
    intro i j hij
    rcases lt_trichotomy j s.filler.accepted.length with hj | rfl | hj
    · rw [accept_parents ht hj] at hij
      obtain ⟨k, hi, hj⟩ := he i j hij
      exact ⟨k, accept_holds_iff.mpr (.inl hi), accept_holds_iff.mpr (.inl hj)⟩
    · rw [accept_parents_last ht] at hij
      obtain ⟨k, hk, t, hki⟩ := (hscan.mem_dependencies i).mp hij
      exact ⟨k, accept_holds_iff.mpr (.inl (hr.touches k t i hki)),
        accept_holds_iff.mpr (.inr ⟨rfl, hk⟩)⟩
    · have hlen := (accept_tracks ht hfull hscan).graph_length
      rw [accept_length] at hlen
      rw [DependencyFiller.parents, List.getD_eq_default _ _ (hlen.trans_le hj)] at hij
      cases hij

end Fill

namespace FillerState
variable {gasPerCore maxTxns cores : ℕ} {candidates : Set (Candidate T)} {s s' : FillerState T}

theorem FreshRun.explained (h : FreshRun gasPerCore maxTxns cores candidates s)
    (hmax : maxTxns ≤ 2 ^ 16) : (s.1.Tracks s.2 ∧ s.1.Recalls s.2) ∧ s.1.Explained := by
  obtain ⟨f, calls, hnew, -, hrun⟩ := h
  have hstart : f.Explained := by
    intro i j hij
    rw [DependencyFiller.eq_of_new hnew] at hij
    cases hij
  refine foldlM_keeps (I := fun s : FillerState T => (s.1.Tracks s.2 ∧ s.1.Recalls s.2) ∧
    s.1.Explained) ⟨⟨.new hnew hmax, .new hnew⟩, hstart⟩ (fun call _ t t' ht hcall => ?_) hrun
  refine call_keeps (I := fun f lastTouched => (f.Tracks lastTouched ∧ f.Recalls lastTouched) ∧
    f.Explained) hcall ht ?_ ?_
  · rintro goodBlock x - u u' ⟨⟨ht, hr⟩, he⟩ hstep
    exact ⟨⟨hstep.tracks ht, hstep.recalls ht hr⟩, hstep.explained ht hr he⟩
  · rintro f lastTouched gas ⟨⟨ht, hr⟩, he⟩
    exact ⟨⟨{ ht with }, { hr with }⟩, he⟩

/-- In a block of at most 65536 transactions all edges come from shared keys or senders, if of
the transactions that are offered no two meet in bytes without sharing a key or the sender. Two
that do so, the first with a positive estimate, get a false edge when they are offered in turn.
-/
theorem precise_iff (candidates : Set (Candidate T)) :
    ((∀ a ∈ candidates, ∀ b ∈ candidates, a.Meets b → a.Shares b) →
      ∀ gasPerCore maxTxns cores s, maxTxns ≤ 2 ^ 16 →
        FreshRun gasPerCore maxTxns cores candidates s → s.1.Precise) ∧
    ((∀ gasPerCore maxTxns cores s, maxTxns ≤ 2 ^ 16 →
        FreshRun gasPerCore maxTxns cores candidates s → s.1.Precise) →
      ∀ a ∈ candidates, ∀ b ∈ candidates, 0 < a.gasUsed → a.Meets b → a.Shares b) := by
  constructor
  · intro hshare gasPerCore maxTxns cores s hmax hs i j hij
    obtain ⟨k, ⟨p, hp, hpk⟩, q, hq, hqk⟩ := (hs.explained hmax).2 i j hij
    refine ⟨p, q, hp, hq, hshare _ ?_ _ ?_ ⟨k, hpk, hqk⟩⟩
    · exact hs.limits.offered p (List.mem_of_getElem? hp)
    · exact hs.limits.offered q (List.mem_of_getElem? hq)
  · intro hall a ha b hb hpos hmeets
    obtain ⟨k, hak, hbk⟩ := hmeets
    have hlen : [a, b].length ≤ max 2 1 := le_rfl
    obtain ⟨s, hs, haccepted⟩ := freshRun_list [a, b]
      (fun c hc => show c ∈ candidates by
        rcases List.mem_pair.mp hc with rfl | rfl
        · exact ha
        · exact hb) (by decide) hlen
    obtain ⟨⟨ht, hr⟩, -⟩ := hs.explained (by decide)
    have hfst : ∀ i : ℕ, (s.1.accepted[i]?).map Prod.fst = [a, b][i]? := by
      intro i
      rw [← haccepted, List.getElem?_map]
    obtain ⟨p, hp, rfl⟩ := Option.map_eq_some_iff.mp (hfst 0)
    obtain ⟨q, hq, rfl⟩ := Option.map_eq_some_iff.mp (hfst 1)
    -- the second looks up what the first has touched, and only the first comes before it
    have hfirst : s.1.Touches k 0 := ⟨p, hp, hak⟩
    have hsecond : s.1.Consults k 1 := ⟨q, hq, hbk⟩
    have hfinish : 0 < s.1.finishTime 0 := by
      have hweight : s.1.weight 0 = p.1.gasUsed := by
        rw [DependencyFiller.weight, ht.gas_eq, List.getD_eq_getElem?_getD, List.getElem?_map, hp]
        rfl
      rw [ht.path.cost_eq 0 hfirst.lt, hweight]
      exact Nat.add_pos_left hpos _
    obtain ⟨i, hi, -, -⟩ := hr.edge k 0 1 Nat.zero_lt_one hfirst hsecond hfinish
    have hi0 : i = 0 := Nat.lt_one_iff.mp (ht.path.earlier 1 hsecond.lt i hi)
    obtain ⟨p', q', hp', hq', hshares⟩ := hall _ _ _ s (by decide) hs i 1 hi
    rw [hi0, hp] at hp'
    rw [hq] at hq'
    cases hp'
    cases hq'
    exact hshares

/-- The same path in two accounts, used by two senders. -/
def twoAccounts : List (Candidate ℕ) :=
  [⟨[.accessPath [1] [7]], [], 10, ⟨[0, 1], 0⟩⟩, ⟨[], [.accessPath [2] [7]], 10, ⟨[0, 2], 0⟩⟩]

/-- The second depends on the first, although they have neither a key nor the sender in common. -/
theorem precise_fails : ∃ s, FreshRun 100 2 1 {c | c ∈ twoAccounts} s ∧ 0 ∈ s.1.parents 1 ∧
    s.1.Holds (fun c => c.sender = [0, 1] ∧ c.writeSet = [.accessPath [1] [7]]) 0 ∧
    s.1.Holds (fun c => c.sender = [0, 2] ∧ c.readSet = [.accessPath [2] [7]]) 1 ∧
    ¬ s.1.Precise := by
  obtain ⟨s, hs, hedge, hfirst, hsecond⟩ : ∃ s, FreshRun 100 2 1 {c | c ∈ twoAccounts} s ∧
      0 ∈ s.1.parents 1 ∧
      s.1.Holds (fun c => c.sender = [0, 1] ∧ c.writeSet = [.accessPath [1] [7]]) 0 ∧
      s.1.Holds (fun c => c.sender = [0, 2] ∧ c.readSet = [.accessPath [2] [7]]) 1 :=
    FreshRun.of_batch (fun _ => id) (by decide +kernel)
  refine ⟨s, hs, hedge, hfirst, hsecond, fun h => ?_⟩
  obtain ⟨p, q, hp, hq, hshares⟩ := h 0 1 hedge
  obtain ⟨p', hp', hsender, hwrite⟩ := hfirst
  obtain ⟨q', hq', hsender', hread⟩ := hsecond
  cases hp.symm.trans hp'
  cases hq.symm.trans hq'
  rcases hshares with hsame | ⟨key, hkey, hkey'⟩
  · rw [hsender, hsender'] at hsame
    exact absurd hsame (by decide)
  · rw [hwrite] at hkey
    rw [hread, List.mem_singleton.mp hkey] at hkey'
    exact absurd hkey' (by decide)

/-- Two transactions that share the key they meet in. -/
theorem precise_oneKey : ∃ s,
    FreshRun (2 ^ 40) 2 1 {.onBytes 1 0 [] [7] 10, .onBytes 2 0 [7] [] 10} s ∧
    s.1.accepted.length = 2 ∧ s.1.Precise := by
  have hlen : [Candidate.onBytes 1 0 [] [7] 10, .onBytes 2 0 [7] [] 10].length ≤ max 2 1 := le_rfl
  obtain ⟨s, hs, haccepted⟩ := freshRun_list _ (fun c hc => List.mem_pair.mp hc) (by decide) hlen
  refine ⟨s, hs, ?_, (precise_iff _).1 ?_ _ _ _ s (by decide) hs⟩
  · rw [← List.length_map Prod.fst, haccepted]
    rfl
  · rintro a (rfl | rfl) b (rfl | rfl) <;> decide

end FillerState

end Anthemius

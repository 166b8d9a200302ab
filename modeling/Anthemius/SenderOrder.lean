import Anthemius.BatchHandler
import Anthemius.InterleavedRuns

/-! The order of the transactions of one sender over many calls of the batch handler. Blocked
senders are looked at in good blocks only, but marked batches are passed over in every block: a
call that passes over the waiting transaction of a sender may then take a later one of the same
sender. Without such a call the order is kept. -/
namespace Anthemius
open CheckedLoops InterleavedRuns LittleEndianBytes

namespace BatchHandler
variable {T : Type} {goodBlock : Bool} {txns : List (List (Candidate T))} {s s' : BatchHandler T}

/-- The senders of a batch that is passed over are blocked, or the block is full, or they have
nothing in a later batch. -/
def SkipsSafely (goodBlock : Bool) (s : BatchHandler T) : Prop :=
  goodBlock = true ∨ (s.Skips → s.filler.full = true ∨ ∀ vec ∈ s.txns[s.index]?, ∀ c ∈ vec,
    ∀ later ∈ (s.txns.drop (s.index + 1)).flatten, later.sender ≠ c.sender)

/-- Nothing more of the sender gets into the block of this call. -/
def Blocked (goodBlock : Bool) (s : BatchHandler T) (u : Bytes) : Prop :=
  s.filler.full = true ∨ goodBlock = true ∧ u ∈ s.skippedUsers

/-- The block and the batches together have the transactions of each sender in order. -/
def Ordered (txns : List (List (Candidate T))) (s : BatchHandler T) : Prop :=
  ∀ u, (s.filler.accepted.map Prod.fst).filter (Fill.ofSender u) ++
    s.txns.flatten.filter (Fill.ofSender u) = txns.flatten.filter (Fill.ofSender u)

/-- Who left something in the batches before the index is blocked or has nothing from the index
on. -/
def Waits (goodBlock : Bool) (s : BatchHandler T) : Prop :=
  ∀ u, (s.txns.take s.index).flatten.filter (Fill.ofSender u) ≠ [] →
    s.Blocked goodBlock u ∨ (s.txns.drop s.index).flatten.filter (Fill.ofSender u) = []

theorem take_succ_flatten {ls : List (List (Candidate T))} {i : ℕ} {v : List (Candidate T)}
    (h : ls[i]? = some v) : (ls.take (i + 1)).flatten = (ls.take i).flatten ++ v := by
  rw [List.take_add_one, h, List.flatten_append]
  simp

theorem drop_flatten {ls : List (List (Candidate T))} {i : ℕ} {v : List (Candidate T)}
    (h : ls[i]? = some v) : (ls.drop i).flatten = v ++ (ls.drop (i + 1)).flatten := by
  obtain ⟨hi, rfl⟩ := List.getElem?_eq_some_iff.mp h
  rw [List.drop_eq_getElem_cons hi, List.flatten_cons]

theorem Visit.ordered (h : Visit goodBlock s s') (hs : Ordered txns s) (hw : s.Waits goodBlock) :
    Ordered txns s' := by
  cases h with
  | skip _ _ _ htxns hfiller => exact fun u => by rw [hfiller, htxns]; exact hs u
  | empty _ htxns hfiller => exact fun u => by rw [hfiller, htxns]; exact hs u
  | add vec fill flag hvec hadd htxns gas hfiller _ _ =>
    intro u
    obtain ⟨new, hnew⟩ := DependencyFiller.addAll_divides hadd
    have hold := hs u
    rw [flatten_of_getElem? hvec, List.filter_append, List.filter_append, ← hnew.ordered u] at hold
    rw [← hold, hfiller, htxns, flatten_set (List.getElem?_eq_some_iff.mp hvec).1,
      hnew.accepted_eq, List.map_append, List.filter_append, List.filter_append, List.filter_append]
    by_cases hempty : (s.txns.take s.index).flatten.filter (Fill.ofSender u) = []
    · simp [hempty]
    · -- a sender that is waiting further up the list gets nothing into the block
      have hnone : (new.map Prod.fst).filter (Fill.ofSender u) = [] := by
        rcases hw u hempty with hblocked | hrest
        · exact hnew.excluded u hblocked
        · rw [drop_flatten hvec, List.filter_append, ← hnew.ordered u] at hrest
          exact (List.append_eq_nil_iff.mp (List.append_eq_nil_iff.mp hrest).1).1
      simp [hnone]

theorem Visit.waits (h : Visit goodBlock s s') (hw : s.Waits goodBlock)
    (hsafe : s.SkipsSafely goodBlock) (hindex : s'.index = s.index + 1) : s'.Waits goodBlock := by
  -- what was blocked or exhausted before the round stays so
  have hkeep : ∀ vec, s.txns[s.index]? = some vec →
      (∀ u, s.Blocked goodBlock u → s'.Blocked goodBlock u) →
      ∀ u, (s.txns.take s.index).flatten.filter (Fill.ofSender u) ≠ [] →
        s'.Blocked goodBlock u ∨
          (s.txns.drop (s.index + 1)).flatten.filter (Fill.ofSender u) = [] := by
    intro vec hvec hmono u hu
    refine (hw u hu).imp (hmono u) fun hrest => ?_
    rw [drop_flatten hvec, List.filter_append] at hrest
    exact (List.append_eq_nil_iff.mp hrest).2
  intro u hu
  rw [hindex] at hu ⊢
  cases h with
  | skip vec hvec hskip htxns hfiller _ husers =>
    rw [htxns] at hu ⊢
    rw [take_succ_flatten hvec, List.filter_append] at hu
    have hmono : ∀ u, s.Blocked goodBlock u → s'.Blocked goodBlock u := by
      rintro u (hfull | ⟨hgood, hmem⟩)
      · exact .inl (hfiller ▸ hfull)
      · exact .inr ⟨hgood, husers ▸ Finset.mem_union_left _ hmem⟩
    by_cases hbefore : (s.txns.take s.index).flatten.filter (Fill.ofSender u) = []
    · rw [hbefore, List.nil_append] at hu
      obtain ⟨c, hc⟩ := List.exists_mem_of_ne_nil _ hu
      obtain ⟨hcvec, hcu⟩ := List.mem_filter.mp hc
      have hcu : c.sender = u := of_decide_eq_true hcu
      rcases hsafe with hgood | hsafe
      · refine .inl (.inr ⟨hgood, ?_⟩)
        rw [husers, Finset.mem_union, List.mem_toFinset]
        exact .inr (hcu ▸ List.mem_map_of_mem hcvec)
      · rcases hsafe hskip with hfull | hlater
        · exact .inl (.inl (hfiller ▸ hfull))
        · refine .inr (List.filter_eq_nil_iff.mpr fun later hmem => ?_)
          have := hlater vec hvec c hcvec later hmem
          simpa [Fill.ofSender, ← hcu] using this
    · exact hkeep vec hvec hmono u hbefore
  | empty hvec htxns hfiller _ husers =>
    rw [htxns] at hu ⊢
    rw [take_succ_flatten hvec, List.append_nil] at hu
    exact hkeep [] hvec (fun u h => by rwa [Blocked, hfiller, husers]) u hu
  | add vec fill flag hvec hadd htxns gas hfiller _ husers =>
    obtain ⟨new, hnew⟩ := DependencyFiller.addAll_divides hadd
    have hi := (List.getElem?_eq_some_iff.mp hvec).1
    rw [htxns] at hu ⊢
    rw [take_succ_flatten (List.getElem?_set_self hi), List.take_set_of_le le_rfl,
      List.filter_append] at hu
    rw [List.drop_set_of_lt (Nat.lt_succ_self _)]
    by_cases hbefore : (s.txns.take s.index).flatten.filter (Fill.ofSender u) = []
    · rw [hbefore, List.nil_append] at hu
      refine .inl ?_
      rw [Blocked, hfiller, husers]
      exact hnew.blocked u hu
    · refine hkeep vec hvec (fun u hblocked => ?_) u hbefore
      rw [Blocked, hfiller, husers]
      exact hblocked.imp hnew.full_mono fun hgood => ⟨hgood.1, hnew.users_subset hgood.2⟩

end BatchHandler

namespace Pool
variable {T : Type}
open BatchHandler

/-- Every batch that the call passes over is passed over safely. -/
def Safe (c : Setting) (p : Pool T) : Prop :=
  ∀ filler, DependencyFiller.new (c.maxGas / c.cores) goalQty (c.cores % 2 ^ 32) = some filler →
    ∀ s, Heads (round c p.txns.length) (start p.txns p.fullBlockSkip filler) s →
      s.SkipsSafely c.goodBlock

theorem call_ordered {c : Setting} {p : Pool T} {s : BatchHandler T} (hsafe : p.Safe c)
    (h : getTransactionRegister c p.txns p.fullBlockSkip = some s) : Ordered p.txns s := by
  unfold getTransactionRegister at h
  split at h
  · cases h
  obtain ⟨filler, hnew, hloop⟩ := Option.bind_eq_some_iff.mp h
  have haccepted : filler.accepted = [] := by
    rw [DependencyFiller.eq_of_new hnew]
  obtain ⟨last, hheads, hdone⟩ := loop_last hloop
  have hkept : Ordered p.txns last ∧ last.Waits c.goodBlock := by
    clear hdone
    induction hheads with
    | refl => exact ⟨fun u => by simp [start, haccepted], fun u hu => absurd rfl hu⟩
    | @tail t t' hbefore hround ih =>
      obtain ⟨hordered, hwaits⟩ := ih
      obtain ⟨hvisit, hmoves⟩ := visit_eq_some hround
      exact ⟨hvisit.ordered hordered hwaits,
        hvisit.waits hwaits (hsafe filler hnew t hbefore) hmoves.1⟩
  exact (visit_eq_some hdone).1.ordered hkept.1 hkept.2

def ofSender (u : Bytes) (tx : SignedTransaction T) : Bool := decide (tx.sender = u)

theorem filter_map_tx (u : Bytes) (l : List (Candidate T)) :
    (l.map Candidate.tx).filter (ofSender u) = (l.filter (Fill.ofSender u)).map Candidate.tx := by
  rw [List.filter_map]
  rfl

theorem call_order {c : Setting} {p q : Pool T} (hsafe : p.Safe c) (h : p.call c = some q)
    (u : Bytes) : q.all.filter (ofSender u) = p.all.filter (ofSender u) := by
  obtain ⟨s, hs, rfl⟩ := Option.map_eq_some_iff.mp h
  have hordered := congrArg (List.map Candidate.tx) (call_ordered hsafe hs u)
  have hblock : s.filler.block = (s.filler.accepted.map Prod.fst).map Candidate.tx := by
    rw [(getTransactionRegister_conserves hs).tracks.block_eq, List.map_map]
    rfl
  rw [List.map_append, ← filter_map_tx, ← filter_map_tx, ← filter_map_tx, ← hblock] at hordered
  simp only [all, List.filter_append, List.append_assoc, hordered]

/-- In a run whose calls pass over marked batches safely, as all calls for good blocks do, the
transactions of a sender are returned in the order of the batches, and those that still wait
are the last ones. -/
theorem sender_order {txns : List (List (Candidate T))} {fullBlockSkip : List Bool} {q : Pool T}
    (h : Reachable (fun c p => Pool.call p c) Safe ⟨txns, fullBlockSkip, []⟩ q) (u : Bytes) :
    q.returned.filter (ofSender u) ++ (q.txns.flatten.map Candidate.tx).filter (ofSender u) =
      (txns.flatten.map Candidate.tx).filter (ofSender u) := by
  have hall : q.all.filter (ofSender u) = (txns.flatten.map Candidate.tx).filter (ofSender u) := by
    refine h.invariant (I := fun q : Pool T => q.all.filter (ofSender u) =
      (txns.flatten.map Candidate.tx).filter (ofSender u)) rfl ?_
    intro c p p' _ hp hsafe hcall
    exact (call_order hsafe hcall u).trans hp
  rw [← hall, all, List.filter_append]

/-- Three calls for good blocks. -/
def goodCalls : List Setting := [⟨1, 2, true, true⟩, ⟨1, 2, true, false⟩, ⟨1, 2, true, true⟩]

theorem sender_order_goodCalls :
    ∃ q, Reachable (fun c p => Pool.call p c) Safe ⟨twoBatches, [false, false], []⟩ q ∧
      q.returned.map (·.body) = [0, 1, 0] ∧
      q.returned.filter (ofSender [0, 1]) ++
        (q.txns.flatten.map Candidate.tx).filter (ofSender [0, 1]) =
        (twoBatches.flatten.map Candidate.tx).filter (ofSender [0, 1]) := by
  obtain ⟨q, hq, hreturned⟩ := Option.map_eq_some_iff.mp (show
    (follow (fun c p => Pool.call p c) goodCalls
      (⟨twoBatches, [false, false], []⟩ : Pool ℕ)).map (fun q => q.returned.map (·.body)) =
      some [0, 1, 0] by decide +kernel)
  have hreach : Reachable (fun c p => Pool.call p c) Safe ⟨twoBatches, [false, false], []⟩ q :=
    Reachable.start.follow goodCalls ⟨fun _ _ _ _ => .inl rfl, fun _ _ => ⟨fun _ _ _ _ => .inl rfl,
      fun _ _ => ⟨fun _ _ _ _ => .inl rfl, fun _ _ => trivial⟩⟩⟩ hq
  exact ⟨q, hreach, hreturned, sender_order hreach _⟩

/-- The last transaction of the first batch waits for a second call, and so does the batch with
the first transaction of sender 2, which is short enough to be marked. The next batch begins
with the second transaction of that sender and is too long to be marked. -/
def crossedBatches : List (List (Candidate ℕ)) :=
  [[.onBytes 1 0 [] [] 20, .onBytes 1 1 [] [] 10], [.onBytes 2 0 [] [] 10],
    .onBytes 2 1 [] [] 10 :: (List.range 25).map fun i => .onBytes 3 i [] [] 10, []]

/-- The second call returns a transaction while an earlier one of the same sender waits. -/
theorem sender_order_crossedBatches :
    ∃ q, follow (fun c p => Pool.call p c) [⟨1, 2, false, true⟩, ⟨1, 2, false, true⟩]
        ⟨crossedBatches, [false, false, false, false], []⟩ = some q ∧
      q.returned.filter (ofSender [0, 2]) = [⟨[0, 2], 1⟩] ∧
      (q.txns.flatten.map Candidate.tx).filter (ofSender [0, 2]) = [⟨[0, 2], 0⟩] ∧
      (crossedBatches.flatten.map Candidate.tx).filter (ofSender [0, 2]) =
        [⟨[0, 2], 0⟩, ⟨[0, 2], 1⟩] := by
  obtain ⟨q, hq, horder⟩ := Option.map_eq_some_iff.mp (show
    (follow (fun c p => Pool.call p c) [⟨1, 2, false, true⟩, ⟨1, 2, false, true⟩]
      (⟨crossedBatches, [false, false, false, false], []⟩ : Pool ℕ)).map (fun q =>
        (q.returned.filter (ofSender [0, 2]),
          (q.txns.flatten.map Candidate.tx).filter (ofSender [0, 2]))) =
      some ([⟨[0, 2], 1⟩], [⟨[0, 2], 0⟩]) by decide +kernel)
  obtain ⟨hreturned, hwaiting⟩ := Prod.mk.inj horder
  exact ⟨q, hq, hreturned, hwaiting, by decide +kernel⟩

end Pool
end Anthemius

import Anthemius.BatchHandler

/-! The benchmark counts how many transactions of the first batches it has taken, call by call.
Without `good_block` the batches are used up one after the other, and from batches of 10000 the
counter of a call is the number of transactions taken so far. With it, batches are left behind
and passed over, and the counter is no such number. -/
namespace Anthemius
open CheckedLoops LittleEndianBytes

variable {T : Type}

/-! ## The experiment -/

/-- The variables of the loop over the calls. -/
structure Experiment (T : Type) where
  mainBlock : List (List (Candidate T))
  fullBlockSkip : List Bool
  totalTx : ℕ

namespace Experiment
open BatchHandler

def start (mainBlock : List (List (Candidate T))) : Experiment T :=
  ⟨mainBlock, List.replicate mainBlock.length false, 0⟩

/-- One call; the difference of two counters is checked. -/
def iterate (c : Setting) (e : Experiment T) : Option (Flow (Experiment T)) :=
  (getTransactionRegister c e.mainBlock e.fullBlockSkip).bind fun s =>
    if s.firstIterTx < e.totalTx then none
    else
      let e' : Experiment T := ⟨s.txns, s.fullBlockSkip, s.firstIterTx⟩
      some (if e'.totalTx ≥ batches * 10000 then .done e' else .next e')

end Experiment

namespace BatchHandler

/-- What a round adds to the counter, unless it panics before. -/
def increment (c : Setting) (minModifier : ℕ) (s : BatchHandler T) : Option ℕ := do
  let vecAtIndex ← s.txns[s.index]?
  let skip ← s.mark
  if skip then
    if vecAtIndex.length % 2 ^ 16 > 10000 then none
    else some (10000 - vecAtIndex.length % 2 ^ 16)
  else if vecAtIndex.length = 0 then some 10000
  else
    let (fill, skippedLast) ← s.filler.addAll vecAtIndex s.lastTouched s.skippedUsers c.goodBlock
    let _ ← markBatch s.fullBlockSkip s.index skippedLast
    let _ ← relax c minModifier vecAtIndex.length
      (fill.filler.block.length - s.prevFillerState) fill.filler s.relaxed
    if s.index ≤ batches - 1 then
      if fill.returnVec.length > 10000 then none else some (10000 - fill.returnVec.length)
    else some 0

/-- Each round adds at most 10000. -/
theorem increment_le {c : Setting} {minModifier n : ℕ} {s : BatchHandler T}
    (h : s.increment c minModifier = some n) : n ≤ 10000 := by
  simp only [increment, Option.bind_eq_bind, Option.bind_eq_some_iff] at h
  obtain ⟨vec, -, skip, -, h⟩ := h
  split at h
  · split at h
    · cases h
    · cases h
      exact Nat.sub_le _ _
  split at h
  · cases h
    exact le_rfl
  simp only [Option.bind_eq_some_iff, Prod.exists] at h
  obtain ⟨fill, flag, -, marks, -, filler, relaxed, -, h⟩ := h
  split at h
  · split at h
    · cases h
    · cases h
      exact Nat.sub_le _ _
  · cases h
    exact Nat.zero_le _

theorem addFirstIterTx_map {s : BatchHandler T} {n : ℕ} {f : BatchHandler T → Flow (BatchHandler T)}
    (hf : ∀ t, (f t).state.firstIterTx = t.firstIterTx) :
    ((s.addFirstIterTx n).map f).map (fun flow => flow.state.firstIterTx) =
      if s.firstIterTx + n < 2 ^ 16 then some (s.firstIterTx + n) else none := by
  unfold addFirstIterTx
  split
  · rw [Option.map_some, Option.map_some, hf]
  · rfl

/-- A round that does not panic before its addition returns if and only if the sum fits into
the counter. -/
theorem visit_increment (c : Setting) (numBlocks minModifier : ℕ) (s : BatchHandler T)
    (hs : s.firstIterTx < 2 ^ 16) :
    (s.visit c numBlocks minModifier).map (fun flow => flow.state.firstIterTx) =
      (s.increment c minModifier).bind fun n =>
        if s.firstIterTx + n < 2 ^ 16 then some (s.firstIterTx + n) else none := by
  simp only [visit, increment, Option.bind_eq_bind]
  cases hvec : s.txns[s.index]? with
  | none => rfl
  | some vec =>
    cases hmark : s.mark with
    | none => rfl
    | some skip =>
      simp only [Option.bind_some]
      cases skip with
      | true =>
        simp only [if_true, skipBatch]
        split
        · rfl
        · rw [Option.bind_some, addFirstIterTx_map]
          intro t
          split <;> rfl
      | false =>
        simp only [Bool.false_eq_true, if_false]
        split
        · rw [Option.bind_some, passEmpty, addFirstIterTx_map]
          intro t
          split <;> rfl
        simp only [addBatch, Option.bind_eq_bind]
        cases s.filler.addAll vec s.lastTouched s.skippedUsers c.goodBlock with
        | none => rfl
        | some fill =>
          obtain ⟨fill, skippedLast⟩ := fill
          simp only [Option.bind_some]
          cases markBatch s.fullBlockSkip s.index skippedLast with
          | none => rfl
          | some marks =>
            simp only [Option.bind_some]
            cases relax c minModifier vec.length (fill.filler.block.length - s.prevFillerState)
              fill.filler s.relaxed with
            | none => rfl
            | some relaxed =>
              simp only [Option.bind_some, countResult]
              split
              · split
                · rfl
                · simp only [addFirstIterTx, Option.bind_some]
                  split
                  · rw [Option.bind_some]
                    split <;> rfl
                  · rfl
              · simp only [Option.bind_some, Nat.add_zero, if_pos hs]
                split <;> rfl

end BatchHandler

/-! ## Batches that are used up in order -/

/-- How many transactions of batches of 10000 the first `n` batches lack. -/
def taken (n : ℕ) (txns : List (List (Candidate T))) : ℕ :=
  ((txns.take n).map fun batch => 10000 - batch.length).sum

section Taken
variable {txns : List (List (Candidate T))} {i n m : ℕ} {batch result : List (Candidate T)}

theorem taken_succ (h : txns[n]? = some batch) :
    taken (n + 1) txns = taken n txns + (10000 - batch.length) := by
  rw [taken, List.take_add_one, h, List.map_append, List.sum_append]
  simp [taken]

theorem taken_le (n : ℕ) (txns : List (List (Candidate T))) : taken n txns ≤ 10000 * n := by
  induction n with
  | zero => simp [taken]
  | succ n ih =>
    cases h : txns[n]? with
    | none =>
      have hsame : taken (n + 1) txns = taken n txns := by
        rw [taken, List.take_add_one, h]
        simp [taken]
      omega
    | some batch =>
      rw [taken_succ h]
      omega

/-- Whole batches add nothing. -/
theorem taken_eq_of_whole (hnm : n ≤ m)
    (h : ∀ j, n ≤ j → ∀ b, txns[j]? = some b → b.length = 10000) : taken m txns = taken n txns := by
  induction m, hnm using Nat.le_induction with
  | base => rfl
  | succ m hnm ih =>
    cases hb : txns[m]? with
    | none =>
      rw [taken, List.take_add_one, hb]
      simpa [taken] using ih
    | some b => rw [taken_succ hb, h m hnm b hb, ih, Nat.sub_self, Nat.add_zero]

/-- So the counter is complete once all batches to come are whole. -/
theorem taken_min_of_whole (h : ∀ j, n ≤ j → ∀ b, txns[j]? = some b → b.length = 10000) :
    taken (min n 5) txns = taken 5 txns := by
  rcases le_total 5 n with h5 | h5
  · rw [min_eq_right h5]
  · rw [min_eq_left h5]
    exact (taken_eq_of_whole h5 h).symm

theorem taken_set_of_le (h : n ≤ i) : taken n (txns.set i result) = taken n txns := by
  rw [taken, List.take_set_of_le h, taken]

theorem taken_le_set (h : txns[i]? = some batch) (hlen : result.length ≤ batch.length) (n : ℕ) :
    taken n txns ≤ taken n (txns.set i result) := by
  induction n with
  | zero => simp [taken]
  | succ n ih =>
    by_cases hi : n = i
    · subst hi
      have hset : (txns.set n result)[n]? = some result :=
        List.getElem?_set_self (List.getElem?_eq_some_iff.mp h).1
      rw [taken_succ h, taken_succ hset]
      omega
    · have hset : (txns.set i result)[n]? = txns[n]? := List.getElem?_set_ne (Ne.symm hi)
      rw [taken, taken, List.take_add_one, List.take_add_one, hset]
      simpa [taken] using ih

end Taken

/-- The batches before position `q` are empty and those behind it are whole. -/
structure Front (txns : List (List (Candidate T))) (q : ℕ) : Prop where
  le : q ≤ txns.length
  empty : ∀ j < q, txns[j]? = some []
  head : ∀ b, txns[q]? = some b → b ≠ [] ∧ b.length ≤ 10000
  behind : ∀ j > q, ∀ b, txns[j]? = some b → b.length = 10000

namespace Front
variable {txns : List (List (Candidate T))} {q n : ℕ} {result : List (Candidate T)}

theorem start (h : ∀ batch ∈ txns, batch.length = 10000) : Front txns 0 where
  le := Nat.zero_le _
  empty := nofun
  head b hb := by
    have := h b (List.mem_of_getElem? hb)
    exact ⟨fun hnil => by simp [hnil] at this, this.le⟩
  behind j _ b hb := h b (List.mem_of_getElem? hb)

theorem taken_eq (h : Front txns q) (hn : n ≤ q) : taken n txns = 10000 * n := by
  induction n with
  | zero => rfl
  | succ n ih =>
    rw [taken_succ (h.empty n hn), ih (by omega), List.length_nil]
    omega

/-- The batch at the front is used, up to an end of it. -/
theorem set (h : Front txns q) (hq : q < txns.length) (hlen : result.length ≤ 10000) :
    Front (txns.set q result) (if result = [] then q + 1 else q) := by
  have hself : (txns.set q result)[q]? = some result := List.getElem?_set_self hq
  have hne (j : ℕ) (hj : j ≠ q) : (txns.set q result)[j]? = txns[j]? :=
    List.getElem?_set_ne (Ne.symm hj)
  split
  · rename_i hnil
    refine ⟨by rwa [List.length_set], fun j hj => ?_, fun b hb => ?_, fun j hj b hb => ?_⟩
    · rcases Nat.lt_succ_iff_lt_or_eq.mp hj with hj | rfl
      · rw [hne j hj.ne]
        exact h.empty j hj
      · rw [hself, hnil]
    · rw [hne _ (Nat.succ_ne_self q)] at hb
      have := h.behind _ (Nat.lt_succ_self q) b hb
      exact ⟨fun hnil => by simp [hnil] at this, this.le⟩
    · rw [hne j (by omega)] at hb
      exact h.behind j (by omega) b hb
  · rename_i hnil
    refine ⟨by rw [List.length_set]; exact h.le, fun j hj => ?_, fun b hb => ?_,
      fun j hj b hb => ?_⟩
    · rw [hne j hj.ne]
      exact h.empty j hj
    · cases hself.symm.trans hb
      exact ⟨hnil, hlen⟩
    · rw [hne j hj.ne'] at hb
      exact h.behind j hj b hb

end Front

/-- Without `good_block` a batch is taken up to the point where the block is full. -/
theorem DependencyFiller.addAll_plain {f : DependencyFiller T} {batch : List (Candidate T)}
    {lastTouched : LastTouched} {users : Finset Bytes} {flag : Bool} {fill : Fill T}
    (h : f.addAll batch lastTouched users false = some (fill, flag)) :
    fill.returnVec.length ≤ batch.length ∧ (fill.returnVec ≠ [] → fill.filler.full = true) ∧
    (f.full = true → fill.returnVec.length = batch.length ∧
      fill.filler.block.length = f.block.length) ∧
    flag = decide (25 ≥ batch.length) := by
  obtain ⟨new, hnew⟩ := addAll_divides h
  have hlen : new.length + fill.returnVec.length = batch.length := by
    simpa using hnew.sorts.perm.length_eq
  refine ⟨by omega, fun hne => ?_, fun hfull => ?_, ?_⟩
  · obtain ⟨c, hc⟩ := List.exists_mem_of_ne_nil _ hne
    have hsender : fill.returnVec.filter (Fill.ofSender c.sender) ≠ [] := by
      refine List.ne_nil_of_mem (List.mem_filter.mpr ⟨hc, ?_⟩)
      exact decide_eq_true rfl
    exact (hnew.blocked _ hsender).resolve_right fun hgood => absurd hgood.1 Bool.false_ne_true
  · have hnone : new = [] := by
      rw [← List.map_eq_nil_iff (f := Prod.fst)]
      refine List.eq_nil_iff_forall_not_mem.mpr fun c hc => ?_
      have hfilter := hnew.excluded c.sender (.inl hfull)
      exact List.filter_eq_nil_iff.mp hfilter c hc (decide_eq_true rfl)
    refine ⟨by simpa [hnone] using hlen, ?_⟩
    rw [hnew.block_eq, hnone]
    simp
  · obtain ⟨s, hfold, hs⟩ := Option.map_eq_some_iff.mp h
    have hskip : s.nonUserSkip = 0 := by
      refine foldlM_keeps (I := fun s : Fill T => s.nonUserSkip = 0) rfl ?_ hfold
      intro c _ t t' ht hstep
      cases Fill.step_eq_some hstep with
      | full | user | exceeds | accept => exact ht
      | skip hgood => cases hgood
    cases hs
    rw [hskip, Nat.zero_add]

namespace BatchHandler

/-- After a call: the counter is what the first batches lack, no less than before, and no mark
is set behind the front. -/
structure Rests (before : ℕ) (s : BatchHandler T) (q : ℕ) : Prop where
  front : Front s.txns q
  counter : s.firstIterTx = taken 5 s.txns
  grows : before ≤ taken 5 s.txns
  marks : ∀ j > q, s.fullBlockSkip[j]? ≠ some true

/-- Within a call: the empty batches are passed first, then the front moves with the index. It
stays behind only if the block is full. -/
structure Walks (before numBlocks : ℕ) (s : BatchHandler T) (q : ℕ) : Prop where
  length_eq : s.txns.length = numBlocks
  front : Front s.txns q
  counter : s.firstIterTx = taken (min s.index 5) s.txns
  grows : before ≤ taken 5 s.txns
  marks : ∀ j > q, s.fullBlockSkip[j]? ≠ some true
  prev : s.prevFillerState = s.filler.block.length
  stage : (s.isFirst = true ∧ s.prevFillerState = 0 ∧ s.index ≤ q ∧ q < 5) ∨
    s.isFirst = false ∧ (s.fullBlockSkip[s.index]? ≠ some true) ∧
      (∀ b, s.txns[s.index]? = some b → b.length = 10000) ∧
      (s.index = q ∨ s.index = q + 1 ∧ s.filler.full = true)

/-- What a round leads to. -/
def Leads (before numBlocks : ℕ) : Flow (BatchHandler T) → Prop
  | .next s => ∃ q, Walks before numBlocks s q
  | .done s => ∃ q, Rests before s q

section Parts
variable {c : Setting} {numBlocks minModifier : ℕ} {s s' : BatchHandler T}
  {flow : Flow (BatchHandler T)} {vec : List (Candidate T)}

theorem countResult_counts {n : ℕ} (h : s.countResult n = some s') :
    s' = { s with firstIterTx := s.firstIterTx + if s.index < 5 then 10000 - n else 0 } := by
  unfold countResult at h
  split at h
  · rename_i hindex
    have hlt : s.index < 5 := Nat.lt_succ_of_le hindex
    split at h
    · cases h
    · rw [addFirstIterTx_eq_some h, if_pos hlt]
  · rename_i hindex
    have hge : ¬ s.index < 5 := fun hlt => hindex (Nat.le_of_lt_succ hlt)
    cases h
    rw [if_neg hge, Nat.add_zero]

theorem markBatch_eq_some {marks marks' : List Bool} {i : ℕ} {flag : Bool}
    (h : markBatch marks i flag = some marks') :
    (∀ j ≠ i, marks'[j]? = marks[j]?) ∧ (flag = false → marks' = marks) := by
  unfold markBatch at h
  split at h
  · rename_i hflag
    split at h
    · cases h
      refine ⟨fun j hj => List.getElem?_set_ne hj.symm, fun hfalse => ?_⟩
      rw [hfalse] at hflag
      cases hflag
    · cases h
  · cases h
    exact ⟨fun _ _ => rfl, fun _ => rfl⟩

theorem addBatch_counts (h : s.addBatch c numBlocks minModifier vec = some flow) :
    ∃ fill flag, s.filler.addAll vec s.lastTouched s.skippedUsers c.goodBlock = some (fill, flag) ∧
      markBatch s.fullBlockSkip s.index flag = some flow.state.fullBlockSkip ∧
      flow.state.txns = s.txns.set s.index fill.returnVec ∧
      flow.state.firstIterTx =
        s.firstIterTx + (if s.index < 5 then 10000 - fill.returnVec.length else 0) ∧
      flow.state.prevFillerState = flow.state.filler.block.length ∧
      flow.state.filler.block = fill.filler.block ∧ flow.state.filler.full = fill.filler.full ∧
      flow.state.isFirst = false ∧
      ∀ s', flow = .next s' → s'.index = s.index + 1 ∧
        ¬ (vec.length = 10000 ∧ fill.filler.block.length - s.prevFillerState = 0) := by
  simp only [addBatch, Option.bind_eq_bind, Option.bind_eq_some_iff, Prod.exists] at h
  obtain ⟨fill, flag, hadd, marks, hmarks, filler, relaxed, hrelax, t, ht, h⟩ := h
  obtain ⟨gas, rfl⟩ := relax_eq_some hrelax
  obtain rfl := countResult_counts ht
  refine ⟨fill, flag, hadd, ?_⟩
  split at h
  · cases h
    refine ⟨hmarks, rfl, rfl, rfl, rfl, rfl, rfl, fun s' hs' => ?_⟩
    cases hs'
  · rename_i hlast
    cases h
    refine ⟨hmarks, rfl, rfl, rfl, rfl, rfl, rfl, fun s' hs' => ?_⟩
    cases hs'
    exact ⟨rfl, fun hstop => hlast (.inr (.inr (.inr (.inl hstop))))⟩

end Parts

namespace Walks
variable {c : Setting} {numBlocks minModifier before q : ℕ} {s : BatchHandler T}
  {flow : Flow (BatchHandler T)} {vec : List (Candidate T)}

/-- The counter is at most 50000. -/
theorem firstIterTx_le (h : Walks before numBlocks s q) : s.firstIterTx ≤ 50000 := by
  rw [h.counter]
  have := taken_le (min s.index 5) s.txns
  omega

theorem mark_ne (h : Walks before numBlocks s q) : s.mark ≠ some true := by
  unfold mark
  split
  · exact nofun
  · rcases h.stage with ⟨hfirst, -⟩ | ⟨-, hmark, -⟩
    · contradiction
    · exact hmark

theorem of_empty (h : Walks before numBlocks s q) (hvec : s.txns[s.index]? = some []) :
    s.prevFillerState = 0 ∧ s.index < q ∧ q < 5 := by
  rcases h.stage with ⟨-, hprev, hle, hq⟩ | ⟨-, -, hwhole, -⟩
  · refine ⟨hprev, hle.lt_of_ne fun heq => ?_, hq⟩
    rw [heq] at hvec
    exact (h.front.head [] hvec).1 rfl
  · exact absurd (hwhole [] hvec) (by simp)

theorem passEmpty (h : Walks before numBlocks s q) (hvec : s.txns[s.index]? = some [])
    (hpass : s.passEmpty numBlocks = some flow) : Leads before numBlocks flow := by
  obtain ⟨hprev, hlt, hq⟩ := h.of_empty hvec
  obtain ⟨t, ht, rfl⟩ := Option.map_eq_some_iff.mp hpass
  obtain rfl := addFirstIterTx_eq_some ht
  have hle := h.front.le
  rw [h.length_eq] at hle
  have hcount : s.firstIterTx + 10000 = taken (s.index + 1) s.txns := by
    rw [taken_succ hvec, h.counter, min_eq_left (by omega), List.length_nil]
  dsimp only
  split
  · rename_i hstop
    -- only the end of the list stops the round
    have hend : numBlocks ≤ s.index + 1 := by
      rcases hstop with hstop | hstop
      · rw [hprev] at hstop
        exact absurd hstop (by decide)
      · exact hstop
    refine ⟨q, h.front, ?_, h.grows, h.marks⟩
    refine hcount.trans (taken_eq_of_whole (by omega) fun j hj b hb => ?_).symm
    have := (List.getElem?_eq_some_iff.mp hb).1
    have := h.length_eq
    omega
  · refine ⟨q, h.length_eq, h.front, ?_, h.grows, h.marks, h.prev, ?_⟩
    · rw [min_eq_left (by dsimp only; omega)]
      exact hcount
    · rcases h.stage with ⟨hfirst, hprev, -, hq⟩ | ⟨-, -, hwhole, -⟩
      · exact .inl ⟨hfirst, hprev, hlt, hq⟩
      · exact absurd (hwhole [] hvec) (by simp)

/-- A batch that is not empty lies at the front, or behind it with the block full. -/
theorem of_ne_nil (h : Walks before numBlocks s q) (hvec : s.txns[s.index]? = some vec)
    (hne : vec ≠ []) : s.index = q ∧ vec.length ≤ 10000 ∨
      s.index = q + 1 ∧ s.filler.full = true ∧ vec.length = 10000 := by
  rcases h.stage with ⟨-, -, hle, -⟩ | ⟨-, -, hwhole, heq | ⟨heq, hfull⟩⟩
  · rcases hle.lt_or_eq with hlt | heq
    · cases hvec.symm.trans (h.front.empty _ hlt)
      exact absurd rfl hne
    · exact .inl ⟨heq, (h.front.head vec (heq ▸ hvec)).2⟩
  · exact .inl ⟨heq, (hwhole vec hvec).le⟩
  · exact .inr ⟨heq, hfull, hwhole vec hvec⟩

theorem addBatch_front (h : Walks before numBlocks s s.index) (hgood : c.goodBlock = false)
    (hvec : s.txns[s.index]? = some vec) (hvlen : vec.length ≤ 10000)
    (hadd : s.addBatch c numBlocks minModifier vec = some flow) : Leads before numBlocks flow := by
  obtain ⟨fill, flag, hfill, hmarks, htxns, hcount, hprev, -, hfull, hfirst, hnext⟩ :=
    addBatch_counts hadd
  rw [hgood] at hfill
  obtain ⟨hlen, hrest, -, -⟩ := DependencyFiller.addAll_plain hfill
  have hindex : s.index < s.txns.length := (List.getElem?_eq_some_iff.mp hvec).1
  let q := if fill.returnVec = [] then s.index + 1 else s.index
  have hfront : Front flow.state.txns q := htxns ▸ h.front.set hindex (hlen.trans hvlen)
  have hgrows : before ≤ taken 5 flow.state.txns :=
    h.grows.trans (htxns ▸ taken_le_set hvec hlen 5)
  have hunmarked : ∀ j > s.index, flow.state.fullBlockSkip[j]? ≠ some true := by
    intro j hj
    rw [(markBatch_eq_some hmarks).1 j hj.ne']
    exact h.marks j hj
  have hafter : ∀ j > q, flow.state.fullBlockSkip[j]? ≠ some true := by
    intro j hj
    refine hunmarked j (Nat.lt_of_le_of_lt ?_ hj)
    dsimp only [q]
    split
    · exact Nat.le_succ _
    · exact le_rfl
  have hwhole : ∀ j > s.index, ∀ b, flow.state.txns[j]? = some b → b.length = 10000 := by
    intro j hj b hb
    rw [htxns, List.getElem?_set_ne hj.ne] at hb
    exact h.front.behind j hj b hb
  have hcounter : flow.state.firstIterTx = taken (min (s.index + 1) 5) flow.state.txns := by
    have hset : (s.txns.set s.index fill.returnVec)[s.index]? = some fill.returnVec :=
      List.getElem?_set_self hindex
    rw [hcount, h.counter, htxns]
    split
    · rename_i hlt
      rw [min_eq_left hlt.le, min_eq_left (Nat.succ_le_of_lt hlt), taken_succ hset,
        taken_set_of_le le_rfl]
    · rename_i hge
      rw [min_eq_right (not_lt.mp hge), min_eq_right (by omega), taken_set_of_le (not_lt.mp hge),
        Nat.add_zero]
  cases flow with
  | done s' => exact ⟨q, hfront, hcounter.trans (taken_min_of_whole hwhole), hgrows, hafter⟩
  | next s' =>
    have hindex' := (hnext s' rfl).1
    refine ⟨q, ?_, hfront, hindex' ▸ hcounter, hgrows, hafter, hprev, .inr ⟨hfirst, ?_, ?_, ?_⟩⟩
    · exact (congrArg List.length htxns).trans (List.length_set.trans h.length_eq)
    · exact hindex' ▸ hunmarked _ (Nat.lt_succ_self _)
    · exact hindex' ▸ hwhole _ (Nat.lt_succ_self _)
    · dsimp only [q]
      split
      · exact .inl hindex'
      · rename_i hne
        exact .inr ⟨hindex', hfull.trans (hrest hne)⟩

/-- Behind the front nothing is taken, and the call ends. -/
theorem addBatch_behind (h : Walks before numBlocks s q) (hgood : c.goodBlock = false)
    (hvec : s.txns[s.index]? = some vec) (hindex : s.index = q + 1)
    (hfull : s.filler.full = true) (hvlen : vec.length = 10000)
    (hadd : s.addBatch c numBlocks minModifier vec = some flow) : Leads before numBlocks flow := by
  obtain ⟨fill, flag, hfill, hmarks, htxns, hcount, -, -, -, -, hnext⟩ := addBatch_counts hadd
  rw [hgood] at hfill
  obtain ⟨hlen, -, hkept, hflag⟩ := DependencyFiller.addAll_plain hfill
  obtain ⟨hsize, hblock⟩ := hkept hfull
  cases flow with
  | next s' =>
    refine absurd ⟨hvlen, ?_⟩ (hnext s' rfl).2
    rw [hblock, h.prev, Nat.sub_self]
  | done s' =>
    have htxns : s'.txns = s.txns.set s.index fill.returnVec := htxns
    have hne (j : ℕ) (hj : j ≤ q) : s'.txns[j]? = s.txns[j]? := by
      rw [htxns, List.getElem?_set_ne (by omega)]
    have hwhole : ∀ j > q, ∀ b, s'.txns[j]? = some b → b.length = 10000 := by
      intro j hj b hb
      by_cases heq : j = s.index
      · rw [htxns, heq, List.getElem?_set_self (List.getElem?_eq_some_iff.mp hvec).1] at hb
        cases hb
        exact hsize.trans hvlen
      · rw [htxns, List.getElem?_set_ne (Ne.symm heq)] at hb
        exact h.front.behind j hj b hb
    refine ⟨q, ⟨?_, fun j hj => ?_, fun b hb => ?_, hwhole⟩, ?_, ?_, ?_⟩
    · rw [htxns, List.length_set]
      exact h.front.le
    · exact (hne j hj.le).trans (h.front.empty j hj)
    · exact h.front.head b (hne q le_rfl ▸ hb)
    · have hzero : s'.firstIterTx = s.firstIterTx := by
        refine hcount.trans ?_
        rw [hsize, hvlen, Nat.sub_self, ite_self, Nat.add_zero]
      rw [hzero, h.counter, ← taken_min_of_whole (n := s.index) (fun j hj => hwhole j (by omega)),
        htxns, taken_set_of_le (min_le_left _ _)]
    · exact h.grows.trans (htxns ▸ taken_le_set hvec hlen 5)
    · intro j hj
      have hunmarked : s'.fullBlockSkip = s.fullBlockSkip :=
        (markBatch_eq_some hmarks).2 (by rw [hflag, hvlen]; rfl)
      rw [hunmarked]
      exact h.marks j hj

theorem visit (h : Walks before numBlocks s q) (hgood : c.goodBlock = false)
    (hvisit : s.visit c numBlocks minModifier = some flow) : Leads before numBlocks flow := by
  simp only [BatchHandler.visit, Option.bind_eq_bind, Option.bind_eq_some_iff] at hvisit
  obtain ⟨vec, hvec, skip, hskip, hvisit⟩ := hvisit
  cases skip with
  | true => exact absurd hskip h.mark_ne
  | false =>
    simp only [Bool.false_eq_true, if_false] at hvisit
    split at hvisit
    · rename_i hlen
      rw [List.length_eq_zero_iff.mp hlen] at hvec
      exact h.passEmpty hvec hvisit
    · rename_i hlen
      have hne : vec ≠ [] := fun hnil => hlen (by rw [hnil]; rfl)
      rcases h.of_ne_nil hvec hne with ⟨rfl, hvlen⟩ | ⟨hindex, hfull, hvlen⟩
      · exact h.addBatch_front hgood hvec hvlen hvisit
      · exact h.addBatch_behind hgood hvec hindex hfull hvlen hvisit

/-- No addition overflows the counter. -/
theorem increment_lt (h : Walks before numBlocks s q) {n : ℕ}
    (hn : s.increment c minModifier = some n) : s.firstIterTx + n < 2 ^ 16 := by
  have hcounter := h.firstIterTx_le
  have hadded := increment_le hn
  omega

end Walks

end BatchHandler

namespace Experiment
open BatchHandler
variable {c : Setting} {e : Experiment T} {s : BatchHandler T}

/-- Between the calls. -/
structure Counts (e : Experiment T) (q : ℕ) : Prop where
  front : Front e.mainBlock q
  marks : ∀ j > q, e.fullBlockSkip[j]? ≠ some true
  total_eq : e.totalTx = taken 5 e.mainBlock
  total_lt : e.totalTx < 50000

theorem counts_start {mainBlock : List (List (Candidate T))}
    (h : ∀ batch ∈ mainBlock, batch.length = 10000) : Counts (start mainBlock) 0 where
  front := .start h
  marks j _ := by
    intro hj
    exact Bool.false_ne_true (List.eq_of_mem_replicate (List.mem_of_getElem? hj)).symm
  total_eq := by
    refine (taken_eq_of_whole (n := 0) (Nat.zero_le 5) fun j _ b hb => ?_).symm
    exact h b (List.mem_of_getElem? hb)
  total_lt := Nat.zero_lt_succ 49999

variable {q : ℕ}

/-- At most four batches have been used up. -/
theorem Counts.front_lt (h : Counts e q) : q < 5 := by
  by_contra hge
  have htaken := h.front.taken_eq (not_lt.mp hge)
  have hlt := h.total_lt
  rw [h.total_eq, htaken] at hlt
  exact absurd hlt (by decide)

theorem Counts.walks (h : Counts e q) {filler : DependencyFiller T} {gasPerCore cores : ℕ}
    (hnew : DependencyFiller.new gasPerCore goalQty cores = some filler) :
    Walks e.totalTx e.mainBlock.length
      (BatchHandler.start e.mainBlock e.fullBlockSkip filler) q where
  length_eq := rfl
  front := h.front
  counter := rfl
  grows := h.total_eq.le
  marks := h.marks
  prev := by
    rw [DependencyFiller.eq_of_new hnew]
    rfl
  stage := .inl ⟨rfl, rfl, Nat.zero_le q, h.front_lt⟩

theorem Counts.heads (h : Counts e q) (hgood : c.goodBlock = false)
    {filler : DependencyFiller T} {gasPerCore cores : ℕ}
    (hnew : DependencyFiller.new gasPerCore goalQty cores = some filler)
    (hs : Heads (round c e.mainBlock.length)
      (BatchHandler.start e.mainBlock e.fullBlockSkip filler) s) :
    ∃ q, Walks e.totalTx e.mainBlock.length s q := by
  refine hs.invariant (I := fun s => ∃ q, Walks e.totalTx e.mainBlock.length s q)
    ⟨q, h.walks hnew⟩ ?_
  rintro t t' ⟨q, ht⟩ hround
  exact ht.visit hgood hround

theorem Counts.rests (h : Counts e q) (hgood : c.goodBlock = false)
    (hs : getTransactionRegister c e.mainBlock e.fullBlockSkip = some s) :
    ∃ q, Rests e.totalTx s q := by
  unfold getTransactionRegister at hs
  split at hs
  · cases hs
  obtain ⟨filler, hnew, hloop⟩ := Option.bind_eq_some_iff.mp hs
  obtain ⟨last, hheads, hdone⟩ := loop_last hloop
  obtain ⟨q, hlast⟩ := h.heads hgood hnew hheads
  exact hlast.visit hgood hdone

/-- Without `good_block` and from batches of 10000 transactions: in every call of the experiment
no addition to the counter overflows, and the counter it returns is no less than the one before.
-/
theorem counter_grows (hgood : c.goodBlock = false) {mainBlock : List (List (Candidate T))}
    (hwhole : ∀ batch ∈ mainBlock, batch.length = 10000)
    (he : Heads (iterate c) (start mainBlock) e) :
    (∀ filler s, DependencyFiller.new (c.maxGas / c.cores) goalQty (c.cores % 2 ^ 32) =
        some filler →
      Heads (round c e.mainBlock.length)
        (BatchHandler.start e.mainBlock e.fullBlockSkip filler) s →
      ∀ n, s.increment c (min e.mainBlock.length c.cores) = some n →
        s.firstIterTx + n < 2 ^ 16 ∧ ∃ flow, round c e.mainBlock.length s = some flow ∧
          flow.state.firstIterTx = s.firstIterTx + n) ∧
    ∀ s, getTransactionRegister c e.mainBlock e.fullBlockSkip = some s →
      e.totalTx ≤ s.firstIterTx := by
  obtain ⟨q, hcounts⟩ : ∃ q, Counts e q := by
    refine he.invariant (I := fun e => ∃ q, Counts e q) ⟨0, counts_start hwhole⟩ ?_
    rintro t t' ⟨q, ht⟩ hround
    obtain ⟨s, hs, hround⟩ := Option.bind_eq_some_iff.mp hround
    obtain ⟨q', hrests⟩ := ht.rests hgood hs
    simp only at hround
    split at hround
    · cases hround
    · split at hround
      · cases hround
      · rename_i hlt
        cases hround
        exact ⟨q', hrests.front, hrests.marks, hrests.counter, not_le.mp hlt⟩
  refine ⟨fun filler s hnew hs n hn => ?_, fun s hs => ?_⟩
  · obtain ⟨q, hwalks⟩ := hcounts.heads hgood hnew hs
    have hlt := hwalks.increment_lt hn
    have hvisit := visit_increment c e.mainBlock.length (min e.mainBlock.length c.cores) s
      (hwalks.firstIterTx_le.trans_lt (by decide))
    rw [hn, Option.bind_some, if_pos hlt] at hvisit
    exact ⟨hlt, Option.map_eq_some_iff.mp hvisit⟩
  · obtain ⟨q, hrests⟩ := hcounts.rests hgood hs
    exact hrests.counter ▸ hrests.grows

/-- Five batches of 10000 copies of one transaction, at the first call. -/
theorem counter_grows_fiveBatches :
    ∃ e, Heads (iterate ⟨16, 1700000, false, true⟩)
        (start (List.replicate 5 (List.replicate 10000 (.onBytes 1 0 [] [7] 500)))) e ∧
      ∀ s, getTransactionRegister ⟨16, 1700000, false, true⟩ e.mainBlock e.fullBlockSkip = some s →
        e.totalTx ≤ s.firstIterTx := by
  refine ⟨_, .refl, (counter_grows rfl (fun batch hbatch => ?_) .refl).2⟩
  rw [List.eq_of_mem_replicate hbatch, List.length_replicate]

/-- Three batches of one transaction that needs more gas than a core has. -/
def heavyBatches : List (List (Candidate ℕ)) :=
  [[.onBytes 1 0 [] [] 100], [.onBytes 2 0 [] [] 100], [.onBytes 3 0 [] [] 100]]

/-- Seven empty batches overflow the counter. With `good_block`, the batches that nothing was
taken from are marked in the first call, the second passes over one of them and leaves out the
last, and the counter falls from 29997 to 19998. -/
theorem counter_falls :
    (∃ filler s n, DependencyFiller.new 100 goalQty 1 = some filler ∧
      Heads (round ⟨1, 100, false, true⟩ 7)
        (BatchHandler.start (T := ℕ) (List.replicate 7 []) (List.replicate 7 false) filler) s ∧
      s.increment ⟨1, 100, false, true⟩ 1 = some n ∧ ¬ s.firstIterTx + n < 2 ^ 16) ∧
    ∃ e s, Heads (iterate ⟨1, 5, true, true⟩) (start heavyBatches) e ∧
      getTransactionRegister ⟨1, 5, true, true⟩ e.mainBlock e.fullBlockSkip = some s ∧
      e.totalTx = 29997 ∧ s.firstIterTx = 19998 := by
  constructor
  · obtain ⟨s, hs, hcounts⟩ := Option.map_eq_some_iff.mp (show
      (rounds (round ⟨1, 100, false, true⟩ 7) 6 (BatchHandler.start (T := ℕ) (List.replicate 7 [])
        (List.replicate 7 false) ⟨100, 100, goalQty, 1, 0, false, [], [], [], []⟩)).map
        (fun s => (s.increment ⟨1, 100, false, true⟩ 1, s.firstIterTx)) = some (some 10000, 60000)
      by decide +kernel)
    have hcounter : s.firstIterTx = 60000 := congrArg Prod.snd hcounts
    exact ⟨_, s, 10000, rfl, heads_of_rounds hs, congrArg Prod.fst hcounts,
      by rw [hcounter]; decide⟩
  · obtain ⟨e, he, hrun⟩ := Option.bind_eq_some_iff.mp (show
      ((rounds (iterate ⟨1, 5, true, true⟩) 1 (start heavyBatches)).bind fun e =>
        (getTransactionRegister ⟨1, 5, true, true⟩ e.mainBlock e.fullBlockSkip).map fun s =>
          (e.totalTx, s.firstIterTx)) = some (29997, 19998) by decide +kernel)
    obtain ⟨s, hs, hcounts⟩ := Option.map_eq_some_iff.mp hrun
    exact ⟨e, s, heads_of_rounds he, hs, congrArg Prod.fst hcounts, congrArg Prod.snd hcounts⟩

end Experiment

end Anthemius

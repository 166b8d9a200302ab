import Anthemius.ReplayedChunks
import Mathlib.Logic.Equiv.List

/-!
# Every version of a replayed chunk is covered

The comparisons due for a chunk are those of its versions that are not skipped, each with the
output of the virtual machine on the state that the records before it leave. A replay that
returns has made exactly these, in order, and has applied all records.
-/
namespace Anthemius.Executor

open EntryMaps Outcomes StateStore Accumulators

variable {R K V P H ε ε' Tx Ev S E : Type} [DecidableEq K] [DecidableEq H] [DecidableEq S]

/-- The outputs of a block: those of the machine on the state after the kept outputs before, up to
the one that ends the epoch. -/
def Environment.RunsOn (env : Environment R K V P H ε Tx Ev S E)
    (vm : (K → Option V) → Tx → TransactionOutput K V Ev S) :
    (K → Option V) → List Tx → List (TransactionOutput K V Ev S) → Prop
  | _, [], outputs => outputs = []
  | m, txn :: txns, outputs => ∃ rest, outputs = vm m txn :: rest ∧ rest.length = txns.length ∧
    ((vm m txn).status.isKeep = true → env.isReconfig (vm m txn) = false →
      env.RunsOn vm (overlay (vm m txn).writeSet.updates m) txns rest)

/-- The machine is a function of the state and its block execution is sequential; a state view
shows the map that its tree represents. -/
structure ReplayViews.Sound (views : ReplayViews R K V P ε' Tx Ev S)
    (env : Environment R K V P H ε Tx Ev S E) (Represents : R → (K → Option V) → Prop)
    (Proves : P → R → K → Prop) (vm : (K → Option V) → Tx → TransactionOutput K V Ev S) :
    Prop where
  execute_safe : ∀ {r m}, Represents r m → ∀ txns, Safe (views.execute txns r)
  execute : ∀ {r m}, Represents r m → ∀ {txns outputs}, Returns (views.execute txns r) outputs →
    env.RunsOn vm m txns outputs
  primeCache_safe : ∀ {r m}, Represents r m → ∀ writeSets, Safe (views.primeCache writeSets r)
  primeCache : ∀ {r m}, Represents r m → ∀ {writeSets cache},
    Returns (views.primeCache writeSets r) cache → ∀ writeSet ∈ writeSets,
      ∀ k ∈ writeSet.ops.map Prod.fst,
        get k cache.stateCache = some (m k) ∧ Proves cache.proofs r k

/-- No two write sets, event lists or infos have the same hash. -/
structure Environment.InjectiveHashes (env : Environment R K V P H ε Tx Ev S E) : Prop where
  writeSet : Function.Injective env.writeSetHash
  events : Function.Injective env.eventRootHash
  info : Function.Injective env.infoHash

namespace Comparison

/-- The comparison succeeds. -/
def Matches (env : Environment R K V P H ε Tx Ev S E) (c : Comparison K V H Ev S) : Prop :=
  env.ensureMatchTransactionInfo c.output c.version c.info = .ok ()

omit [DecidableEq K] in
theorem matches_iff {env : Environment R K V P H ε Tx Ev S E} {c : Comparison K V H Ev S} :
    c.Matches env ↔ c.output.status = .keep c.info.status ∧ c.output.gasUsed = c.info.gasUsed ∧
      env.writeSetHash c.output.writeSet = c.info.stateChangeHash ∧
      env.eventRootHash c.output.events = c.info.eventRootHash := by
  rw [Matches, Environment.ensureMatchTransactionInfo]
  split_ifs <;> simp_all

end Comparison

/-- The comparisons due for records from a version on, on the state before them. -/
def comparisonsDue (vm : (K → Option V) → Tx → TransactionOutput K V Ev S) (txnsToSkip : Finset ℕ) :
    (K → Option V) → ℕ → List (RecordedTransaction K V H Tx Ev S) → List (Comparison K V H Ev S)
  | _, _, [] => []
  | m, version, r :: rs =>
    (if version ∈ txnsToSkip then [] else [⟨version, vm m r.transaction, r.info⟩]) ++
      comparisonsDue vm txnsToSkip (overlay r.writeSet.updates m) (version + 1) rs

/-- The state that records leave. -/
def stateAfter (m : K → Option V) (rs : List (RecordedTransaction K V H Tx Ev S)) : K → Option V :=
  rs.foldl (fun m r => overlay r.writeSet.updates m) m

omit [DecidableEq H] [DecidableEq S] in
theorem comparisonsDue_append {vm : (K → Option V) → Tx → TransactionOutput K V Ev S}
    {txnsToSkip : Finset ℕ} (rs rs' : List (RecordedTransaction K V H Tx Ev S)) :
    ∀ m version, comparisonsDue vm txnsToSkip m version (rs ++ rs') =
      comparisonsDue vm txnsToSkip m version rs ++
        comparisonsDue vm txnsToSkip (stateAfter m rs) (version + rs.length) rs' := by
  induction rs with
  | nil => exact fun _ _ => rfl
  | cons r rs ih =>
    intro m version
    rw [List.cons_append, comparisonsDue, comparisonsDue, ih, List.append_assoc, List.length_cons,
      Nat.add_right_comm, Nat.add_assoc version]
    rfl

variable {env : Environment R K V P H ε Tx Ev S E}

theorem current_transaction (a : Progress K V) (txn : KeptTransaction K V) :
    (a.transaction txn).current = overlay txn.2.writeSet.updates a.current := by
  rw [Progress.transaction]
  split
  · rw [Progress.current_mark, Progress.current_add]
  · rw [Progress.current_add]

omit [DecidableEq H] [DecidableEq S] in
theorem current_run (rs : List (RecordedTransaction K V H Tx Ev S)) :
    ∀ a : Progress K V, (a.run ((rs.map (·.applied)).map env.parsed)).current =
      stateAfter a.current rs := by
  induction rs with
  | nil => exact fun _ => rfl
  | cons r rs ih =>
    intro a
    rw [List.map_cons, List.map_cons, Progress.run, List.foldl_cons]
    refine (ih _).trans ?_
    rw [current_transaction]
    rfl

/-- The info has the hashes of the recorded writes and events. -/
structure RecordedTransaction.Consistent (env : Environment R K V P H ε Tx Ev S E)
    (r : RecordedTransaction K V H Tx Ev S) : Prop where
  writeSet : r.info.stateChangeHash = env.writeSetHash r.writeSet
  events : r.info.eventRootHash = env.eventRootHash r.events

omit [DecidableEq K] in
theorem Comparison.Matches.eq (hhash : env.InjectiveHashes) {version : ℕ}
    {output : TransactionOutput K V Ev S} {r : RecordedTransaction K V H Tx Ev S}
    (h : (⟨version, output, r.info⟩ : Comparison K V H Ev S).Matches env)
    (hr : r.Consistent env) :
    output.status.isKeep = true ∧ output.writeSet = r.writeSet ∧ output.events = r.events := by
  obtain ⟨hstatus, -, hwrites, hevents⟩ := Comparison.matches_iff.mp h
  refine ⟨?_, hhash.writeSet (hwrites.trans hr.writeSet), hhash.events (hevents.trans hr.events)⟩
  rw [show output.status = _ from hstatus]
  rfl

section Comparing

variable {vm : (K → Option V) → Tx → TransactionOutput K V Ev S} {txnsToSkip : Finset ℕ}

omit [DecidableEq K] in
/-- How far the comparisons go, and what the last one says. -/
theorem compareAll_spec (env : Environment R K V P H ε Tx Ev S E)
    (rs : List (RecordedTransaction K V H Tx Ev S)) :
    ∀ (version : ℕ) (outputs : List (TransactionOutput K V Ev S)), outputs.length = rs.length →
      (env.compareAll version outputs rs).1.length ≤ rs.length ∧
      ((env.compareAll version outputs rs).2 = none →
        (env.compareAll version outputs rs).1.length = rs.length ∧
        ∀ c ∈ (env.compareAll version outputs rs).1, c.Matches env) ∧
      ∀ v err, (env.compareAll version outputs rs).2 = some (v, err) →
        v + 1 = version + (env.compareAll version outputs rs).1.length ∧
        ∃ c ∈ (env.compareAll version outputs rs).1, ¬ c.Matches env := by
  induction rs with
  | nil =>
    intro version outputs h
    obtain rfl := List.length_eq_zero_iff.mp h
    simp [Environment.compareAll]
  | cons r rs ih =>
    intro version outputs h
    obtain ⟨output, outputs, rfl⟩ := List.exists_cons_of_length_eq_add_one h
    rw [Environment.compareAll]
    cases hmatch : env.ensureMatchTransactionInfo output version r.info with
    | error err =>
      refine ⟨by simp, fun hnone => absurd hnone (by simp), fun v err' hsome => ?_⟩
      obtain ⟨rfl, rfl⟩ := Prod.mk.inj (Option.some.inj hsome)
      refine ⟨rfl, _, List.mem_singleton_self _, ?_⟩
      rw [Comparison.Matches, hmatch]
      simp
    | ok u =>
      obtain ⟨hle, hnone, hsome⟩ := ih (version + 1) outputs (Nat.succ.inj h)
      refine ⟨Nat.succ_le_succ hle, fun hn => ?_, fun v err hs => ?_⟩
      · obtain ⟨hlength, hall⟩ := hnone hn
        exact ⟨congrArg Nat.succ hlength, List.forall_mem_cons.mpr ⟨hmatch, hall⟩⟩
      · obtain ⟨hv, c, hc, hfail⟩ := hsome v err hs
        refine ⟨?_, c, List.mem_cons_of_mem _ hc, hfail⟩
        rw [hv, List.length_cons]
        omega

/-- The comparisons made are those due, if the records they were made for are consistent. -/
theorem compareAll_due (hhash : env.InjectiveHashes)
    (rs : List (RecordedTransaction K V H Tx Ev S)) :
    ∀ (m : K → Option V) (version : ℕ) (outputs : List (TransactionOutput K V Ev S)),
      env.RunsOn vm m (rs.map (·.transaction)) outputs →
      (∀ v, version ≤ v → v < version + rs.length → v ∉ txnsToSkip) →
      (∀ r ∈ rs.dropLast, r.events.any env.isNewEpochEvent = false) →
      (∀ r ∈ rs.take (env.compareAll version outputs rs).1.length, r.Consistent env) →
      (env.compareAll version outputs rs).1 = comparisonsDue vm txnsToSkip m version
        (rs.take (env.compareAll version outputs rs).1.length) := by
  induction rs with
  | nil => exact fun _ _ _ _ _ _ _ => by simp [Environment.compareAll, comparisonsDue]
  | cons r rs ih =>
    rintro m version outputs ⟨rest, rfl, hlength, hcont⟩ hskip hepoch hconsistent
    have hversion : version ∉ txnsToSkip := hskip version (Nat.le_refl _) (by simp)
    rw [Environment.compareAll] at hconsistent ⊢
    cases hmatch : env.ensureMatchTransactionInfo (vm m r.transaction) version r.info with
    | error err => simp [comparisonsDue, hversion]
    | ok u =>
      simp only [hmatch, List.length_cons, List.take_succ_cons, List.forall_mem_cons]
        at hconsistent ⊢
      obtain ⟨hkeep, hwrites, hevents⟩ := Comparison.Matches.eq hhash hmatch hconsistent.1
      -- the machine has left the recorded state and has not ended the epoch
      have hruns : env.RunsOn vm (overlay r.writeSet.updates m) (rs.map (·.transaction)) rest := by
        cases rs with
        | nil => exact List.length_eq_zero_iff.mp hlength
        | cons r' rs =>
          have hreconfig := hepoch r (by simp)
          rw [← hevents] at hreconfig
          rw [← hwrites]
          exact hcont hkeep hreconfig
      have hrest := ih _ (version + 1) rest hruns
        (fun v hle hlt => hskip v (by omega) (by rw [List.length_cons]; omega))
        (fun r' hr' => hepoch r' (by
          rw [List.dropLast_cons_of_ne_nil (List.ne_nil_of_mem (List.mem_of_mem_dropLast hr'))]
          exact List.mem_cons_of_mem _ hr')) hconsistent.2
      rw [comparisonsDue, if_neg hversion, List.singleton_append, ← hrest]

end Comparing

/-- Only the last record may end the epoch. -/
def Environment.WithinEpoch (env : Environment R K V P H ε Tx Ev S E)
    (rs : List (RecordedTransaction K V H Tx Ev S)) : Prop :=
  ∀ front r back, rs = front ++ r :: back → back ≠ [] → r.events.any env.isNewEpochEvent = false

section Epochs

omit [DecidableEq K] [DecidableEq H] [DecidableEq S]

variable {rs rs' : List (RecordedTransaction K V H Tx Ev S)}

theorem Environment.WithinEpoch.left (h : env.WithinEpoch (rs ++ rs')) : env.WithinEpoch rs := by
  rintro front r back rfl hback
  refine h front r (back ++ rs') (by simp) ?_
  exact fun hnil => hback (List.append_eq_nil_iff.mp hnil).1

theorem Environment.WithinEpoch.right (h : env.WithinEpoch (rs ++ rs')) : env.WithinEpoch rs' := by
  rintro front r back rfl hback
  exact h (rs ++ front) r back (by simp) hback

theorem Environment.WithinEpoch.dropLast (h : env.WithinEpoch rs) :
    ∀ r ∈ rs.dropLast, r.events.any env.isNewEpochEvent = false := by
  intro r hr
  obtain ⟨front, back, hsplit⟩ := List.append_of_mem hr
  have hne : rs ≠ [] := List.ne_nil_of_mem (List.mem_of_mem_dropLast hr)
  refine h front r (back ++ [rs.getLast hne]) ?_ (by simp)
  rw [← List.cons_append, ← List.append_assoc, ← hsplit, List.dropLast_append_getLast]

theorem withinEpoch_concat {pending : List (RecordedTransaction K V H Tx Ev S)}
    (hpending : ∀ r ∈ pending, r.events.any env.isNewEpochEvent = false)
    (r : RecordedTransaction K V H Tx Ev S) : env.WithinEpoch (pending ++ [r]) := by
  intro front x back heq hback
  refine hpending x ?_
  have hdrop := congrArg List.dropLast heq
  rw [List.dropLast_concat, List.dropLast_append_of_ne_nil (by simp),
    List.dropLast_cons_of_ne_nil hback] at hdrop
  rw [hdrop]
  simp

theorem Environment.WithinEpoch.keptOutputs (h : env.WithinEpoch rs) :
    KeptOutputs env (rs.map (·.applied)) := by
  constructor
  · intro txn htxn
    obtain ⟨r, -, rfl⟩ := List.mem_map.mp htxn
    rfl
  · intro txn htxn
    rw [← List.map_dropLast] at htxn
    obtain ⟨r, hr, rfl⟩ := List.mem_map.mp htxn
    exact h.dropLast r hr

end Epochs

section Infos

omit [DecidableEq K] [DecidableEq S]

omit [DecidableEq H] in
theorem infoHashes_eq {toCommit : List (TransactionToCommit K V H Tx Ev S)}
    {infos : List (TransactionInfo H S)}
    (h : List.Forall₂ (fun txn info => txn.info = info) toCommit infos) :
    env.infoHashes toCommit = infos.map env.infoHash := by
  induction h with
  | nil => rfl
  | cons heq _ ih =>
    rw [List.map_cons, ← ih, ← heq]
    rfl

/-- Where hashes differ, infos do; so the check does not panic. -/
theorem ensureTransactionInfosMatch_ensures [DecidableEq S]
    (chunk : ExecutedChunk R K V H Tx Ev S E) (infos : List (TransactionInfo H S)) :
    Ensures (env.ensureTransactionInfosMatch chunk infos : Outcome (ReplayError H ε ε' S) Unit)
      fun _ => env.infoHashes chunk.toCommit = infos.map env.infoHash := by
  refine ensures_ensure.bind fun _ hlength => ?_
  split
  next heq => exact ensures_pure heq
  next hne =>
    have hsome : ∃ p ∈ chunk.toCommit.zip infos, p.1.info ≠ p.2 := by
      by_contra hall
      refine hne (infoHashes_eq (List.forall₂_iff_zip.mpr ⟨hlength, ?_⟩))
      intro txn info hmem
      by_contra hdiffer
      exact hall ⟨(txn, info), hmem, hdiffer⟩
    obtain ⟨p, hp, hdiffer⟩ := hsome
    obtain ⟨idx, hidx⟩ : ∃ idx, (chunk.toCommit.zip infos).findIdx?
        (fun p => decide (p.1.info ≠ p.2)) = some idx := by
      rw [← Option.isSome_iff_exists, List.findIdx?_isSome, List.any_eq_true]
      exact ⟨p, hp, by simpa using hdiffer⟩
    obtain ⟨q, hq⟩ : ∃ q, (chunk.toCommit.zip infos).find?
        (fun p => decide (p.1.info ≠ p.2)) = some q := by
      rw [← Option.isSome_iff_exists, List.find?_isSome]
      exact ⟨p, hp, by simpa using hdiffer⟩
    simp only [hidx, hq]
    exact ensures_throw

omit [DecidableEq H] in
theorem consistent_of_infos {batch : List (RecordedTransaction K V H Tx Ev S)} :
    ∀ {toCommit : List (TransactionToCommit K V H Tx Ev S)},
      List.Forall₂ env.IsCommitOf (batch.map (·.applied)) toCommit →
      toCommit.map (·.info) = batch.map (·.info) → ∀ r ∈ batch, r.Consistent env := by
  induction batch with
  | nil => exact fun _ _ r hr => absurd hr List.not_mem_nil
  | cons r batch ih =>
    intro toCommit hcommits hinfos
    cases hcommits with
    | @cons _ commit _ _ hfirst hrest =>
      obtain ⟨hinfo, hinfos⟩ := List.cons.inj hinfos
      have hinfo : commit.info = r.info := hinfo
      rw [List.forall_mem_cons]
      exact ⟨⟨hinfo ▸ hfirst.stateChangeHash, hinfo ▸ hfirst.eventRootHash⟩, ih hrest hinfos⟩

end Infos

omit [DecidableEq H] [DecidableEq S] in
theorem RunsOn.length_eq {vm : (K → Option V) → Tx → TransactionOutput K V Ev S}
    {txns : List Tx} : ∀ {m : K → Option V}
    {outputs : List (TransactionOutput K V Ev S)}, env.RunsOn vm m txns outputs →
      outputs.length = txns.length := by
  cases txns with
  | nil => exact fun h => congrArg List.length h
  | cons txn txns =>
    rintro m outputs ⟨rest, rfl, hlength, -⟩
    exact congrArg Nat.succ hlength

theorem batchEnds_self (txnsToSkip : Finset ℕ) (v : ℕ) :
    Environment.batchEnds txnsToSkip v v = [v] := by
  simp [Environment.batchEnds]

theorem batchEnds_of_lt (txnsToSkip : Finset ℕ) {v e : ℕ} (h : v < e) :
    Environment.batchEnds txnsToSkip v e =
      (if v ∈ txnsToSkip then [v] else []) ++ Environment.batchEnds txnsToSkip (v + 1) e := by
  obtain ⟨k, rfl⟩ : ∃ k, e = v + (k + 1) := ⟨e - v - 1, by omega⟩
  rw [Environment.batchEnds, Environment.batchEnds, Nat.add_sub_cancel_left,
    show v + (k + 1) - (v + 1) = k by omega, List.range'_succ]
  by_cases hv : v ∈ txnsToSkip <;> simp [hv]

/-- The first end of a batch: nothing before it is skipped, and it stays the first end until it
is reached. -/
theorem batchEnds_head (txnsToSkip : Finset ℕ) {v e : ℕ} (hle : v ≤ e) :
    ∃ first ends, Environment.batchEnds txnsToSkip v e = first :: ends ∧ v ≤ first ∧ first ≤ e ∧
      (first < e → first ∈ txnsToSkip ∧ Environment.batchEnds txnsToSkip (first + 1) e = ends) ∧
      (∀ w, v ≤ w → w < first → w ∉ txnsToSkip) ∧
      ∀ w, v ≤ w → w ≤ first → Environment.batchEnds txnsToSkip w e = first :: ends := by
  induction hk : e - v generalizing v with
  | zero =>
    obtain rfl : v = e := by omega
    refine ⟨v, [], batchEnds_self txnsToSkip v, Nat.le_refl v, Nat.le_refl v,
      fun hlt => absurd hlt (Nat.lt_irrefl v), fun w hge hlt => by omega, fun w hge hle => ?_⟩
    rw [show w = v by omega, batchEnds_self]
  | succ k ih =>
    have hlt : v < e := by omega
    rw [batchEnds_of_lt txnsToSkip hlt]
    by_cases hv : v ∈ txnsToSkip
    · rw [if_pos hv, List.singleton_append]
      refine ⟨v, _, rfl, Nat.le_refl v, hle, fun _ => ⟨hv, rfl⟩, fun w hge hlt => by omega, ?_⟩
      intro w hge hle
      rw [show w = v by omega, batchEnds_of_lt txnsToSkip hlt, if_pos hv, List.singleton_append]
    · rw [if_neg hv, List.nil_append]
      obtain ⟨first, ends, heq, hge, hfirst, hskip, hnone, hsame⟩ := ih (Nat.succ_le_of_lt hlt)
        (by omega)
      refine ⟨first, ends, heq, by omega, hfirst, hskip, fun w hw hwf => ?_, fun w hw hwf => ?_⟩
      · rcases Nat.eq_or_lt_of_le hw with rfl | hlt'
        · exact hv
        · exact hnone w hlt' hwf
      · rcases Nat.eq_or_lt_of_le hw with rfl | hlt'
        · rw [batchEnds_of_lt txnsToSkip hlt, if_neg hv, List.nil_append, heq]
        · exact hsame w hlt' hwf

/-- A replay with what it is measured by: the machine, the state and the number of transactions
it starts from, and the flag as it was. -/
structure ReplayCase (R K V P H ε ε' Tx Ev S E : Type) where
  env : Environment R K V P H ε Tx Ev S E
  views : ReplayViews R K V P ε' Tx Ev S
  Represents : R → (K → Option V) → Prop
  vm : (K → Option V) → Tx → TransactionOutput K V Ev S
  txnsToSkip : Finset ℕ
  lazyQuit : Bool
  seenBefore : Bool
  base : Progress K V
  count : ℕ

namespace ReplayCase

structure Sound (c : ReplayCase R K V P H ε ε' Tx Ev S E) (Proves : P → R → K → Prop)
    (mapHash : (K → Option V) → H) : Prop where
  pad : c.env.pad.Sound c.Represents Proves mapHash
  hashes : c.env.InjectiveHashes
  views : c.views.Sound c.env c.Represents Proves c.vm

/-- The records `done` have been applied and `todo` are left. -/
structure Applied (c : ReplayCase R K V P H ε ε' Tx Ev S E) (s : Replay R K V H Tx Ev S E)
    (done todo : List (RecordedTransaction K V H Tx Ev S)) : Prop where
  remaining : s.remaining = todo
  view : ∃ leaves, leaves.length = c.count + done.length ∧ s.latestView.Holds c.env c.Represents
    (c.base.run ((done.map (·.applied)).map c.env.parsed)) leaves
  commits : List.Forall₂ c.env.IsCommitOf (done.map (·.applied)) s.executedChunk.toCommit
  result : done ≠ [] → s.executedChunk.resultView = s.latestView

/-- Those of the applied records that are not skipped have been compared, and the flag has been
set if a comparison failed. -/
structure Covers (c : ReplayCase R K V P H ε ε' Tx Ev S E) (s : Replay R K V H Tx Ev S E)
    (done todo : List (RecordedTransaction K V H Tx Ev S)) : Prop
    extends c.Applied s done todo where
  compared : s.compared = comparisonsDue c.vm c.txnsToSkip c.base.current c.count done
  seenError : s.seenError = true ↔ c.seenBefore = true ∨ ∃ x ∈ s.compared, ¬ x.Matches c.env
  quick : c.lazyQuit = false → ∀ x ∈ s.compared, x.Matches c.env

/-- The version after the records that have been applied. -/
def version (c : ReplayCase R K V P H ε ε' Tx Ev S E)
    (done : List (RecordedTransaction K V H Tx Ev S)) : ℕ := c.count + done.length

def mode (c : ReplayCase R K V P H ε ε' Tx Ev S E) : VerifyExecutionMode :=
  .verify c.txnsToSkip c.lazyQuit

omit [DecidableEq K] [DecidableEq H] [DecidableEq S] in
theorem version_append (c : ReplayCase R K V P H ε ε' Tx Ev S E)
    (done batch : List (RecordedTransaction K V H Tx Ev S)) :
    c.version (done ++ batch) = c.version done + batch.length := by
  rw [version, version, List.length_append, Nat.add_assoc]

variable {c : ReplayCase R K V P H ε ε' Tx Ev S E} {Proves : P → R → K → Prop}
  {mapHash : (K → Option V) → H} {s : Replay R K V H Tx Ev S E}
  {done batch part rest : List (RecordedTransaction K V H Tx Ev S)}
  {r : RecordedTransaction K V H Tx Ev S} {endVersion : ℕ}

theorem Applied.removeAndApply (hc : c.Sound Proves mapHash) (h : c.Applied s done (batch ++ rest))
    (hend : endVersion = c.version (done ++ batch)) (hroom : endVersion < 2 ^ 64)
    (hepoch : c.env.WithinEpoch batch) :
    Ensures (c.env.removeAndApply c.views s (c.version done) endVersion) fun s' =>
      c.Applied s' (done ++ batch) rest ∧ (∀ r ∈ batch, r.Consistent c.env) ∧
        s'.compared = s.compared ∧ s'.seenError = s.seenError := by
  obtain ⟨leaves, hleaves, hview⟩ := h.view
  rw [version_append] at hend
  have hnum : endVersion - c.version done = batch.length := by omega
  have htake : s.remaining.take batch.length = batch := by
    rw [h.remaining, List.take_left']
    rfl
  have hdrop : s.remaining.drop batch.length = rest := by
    rw [h.remaining, List.drop_left']
    rfl
  have henough : batch.length ≤ s.remaining.length := by
    rw [h.remaining, List.length_append]
    exact Nat.le_add_right _ _
  have hrepresents := hview.state.current.represents
  have hroom' : leaves.length + (batch.map (·.applied)).length < 2 ^ 64 := by
    rw [List.length_map, hleaves]
    exact hend ▸ hroom
  rw [Environment.removeAndApply]
  simp only [hnum, htake, hdrop]
  refine (ensures_assert henough).bind fun _ _ => ?_
  have hprime : Ensures (c.views.primeCache (batch.map (·.writeSet))
      s.latestView.state.current.root) fun cache => Returns _ cache :=
    ⟨hc.views.primeCache_safe hrepresents _, fun _ hcache => hcache⟩
  refine (hprime.mapError _).bind fun cache hcache => ?_
  -- the cache has what the batch writes
  have hcovered : ∀ txn ∈ batch.map (·.applied), ∀ k ∈ txn.2.writeSet.ops.map Prod.fst,
      get k cache.stateCache =
          some ((c.base.run ((done.map (·.applied)).map c.env.parsed)).current k) ∧
        Proves cache.proofs s.latestView.state.current.root k := by
    intro txn htxn k hk
    obtain ⟨r, hr, rfl⟩ := List.mem_map.mp htxn
    exact hc.views.primeCache hrepresents hcache _ (List.mem_map_of_mem hr) k hk
  have happly := hepoch.keptOutputs.apply hc.pad hview hroom' hcovered
  refine (happly.mapError _).bind fun result hresult => ?_
  obtain ⟨-, hcommits, hholds⟩ := hresult
  refine ensures_ensure.bind fun _ _ => ensures_ensure.bind fun _ _ => ?_
  refine (ensureTransactionInfosMatch_ensures _ _).bind fun _ hhashes => ensures_pure ?_
  have hequal : result.1.toCommit.map (·.info) = batch.map (·.info) := by
    refine List.map_injective_iff.mpr hc.hashes.info ?_
    rw [List.map_map]
    exact hhashes
  refine ⟨⟨rfl, ⟨leaves ++ c.env.infoHashes result.1.toCommit, ?_, ?_⟩, ?_, fun _ => rfl⟩,
    consistent_of_infos hcommits hequal, rfl, rfl⟩
  · rw [List.length_append, hhashes, List.length_map, List.length_map, List.length_append, hleaves,
      Nat.add_assoc]
  · rw [List.map_append, List.map_append, Progress.run_append]
    exact hholds
  · rw [List.map_append]
    exact List.rel_append h.commits hcommits

/-- A batch is compared up to its end or to the first mismatch. What has been compared is what
was due, provided that the records turn out to be consistent. -/
theorem Applied.verifyExecution (hc : c.Sound Proves mapHash)
    (h : c.Applied s done (batch ++ rest)) (hne : batch ≠ [])
    (hend : endVersion = c.version (done ++ batch))
    (hskip : ∀ v, c.version done ≤ v → v < endVersion → v ∉ c.txnsToSkip)
    (hepoch : c.env.WithinEpoch batch) :
    Ensures (c.env.verifyExecution c.views c.lazyQuit s (c.version done) endVersion :
        Outcome (ReplayError H ε ε' S) _) fun p =>
      ∃ front back compared seenError, batch = front ++ back ∧ front ≠ [] ∧
        p = (c.version (done ++ front),
          { s with compared := s.compared ++ compared, seenError := seenError }) ∧
        ((∀ r ∈ front, r.Consistent c.env) → compared = comparisonsDue c.vm c.txnsToSkip
          (stateAfter c.base.current done) (c.version done) front) ∧
        (seenError = true ↔ s.seenError = true ∨ ∃ x ∈ compared, ¬ x.Matches c.env) ∧
        (c.lazyQuit = false → ∀ x ∈ compared, x.Matches c.env) := by
  obtain ⟨leaves, -, hview⟩ := h.view
  have hrepresents := hview.state.current.represents
  have hpos := List.length_pos_of_ne_nil hne
  rw [version_append] at hend
  rw [current_run] at hrepresents
  have htake : s.remaining.take (endVersion - c.version done) = batch := by
    rw [h.remaining, hend, Nat.add_sub_cancel_left, List.take_left']
    rfl
  rw [Environment.verifyExecution]
  simp only [htake]
  have hexecute : Ensures (c.views.execute (batch.map (·.transaction))
      s.latestView.state.current.root) fun outputs => c.env.RunsOn c.vm _ _ outputs :=
    ⟨hc.views.execute_safe hrepresents _, fun _ => hc.views.execute hrepresents⟩
  refine (hexecute.mapError _).bind fun outputs hruns => ?_
  have houtputs : outputs.length = batch.length := by
    rw [RunsOn.length_eq hruns, List.length_map]
  obtain ⟨hle, hnone, hsome⟩ := compareAll_spec c.env batch (c.version done) outputs houtputs
  have hdue := compareAll_due hc.hashes batch _ (c.version done) outputs hruns
    (fun v hge hv => hskip v hge (by omega)) hepoch.dropLast
  have hsplit : ∀ n, batch = batch.take n ++ batch.drop n := fun n =>
    (List.take_append_drop n batch).symm
  split
  next compared hcompared =>
    rw [hcompared] at hnone hdue
    obtain ⟨hall, hmatches⟩ := hnone rfl
    simp only at hall hdue hmatches
    rw [hall, List.take_length] at hdue
    refine ensures_pure ⟨batch, [], compared, s.seenError, by simp, hne, ?_, hdue, ?_,
      fun _ => hmatches⟩
    · rw [version_append, hend]
    · refine ⟨.inl, fun hor => hor.resolve_right ?_⟩
      rintro ⟨x, hx, hfail⟩
      exact hfail (hmatches x hx)
  next compared version err hcompared =>
    rw [hcompared] at hle hsome hdue
    obtain ⟨hversion, x, hx, hfail⟩ := hsome version err rfl
    simp only at hle hversion hdue
    have hlength : (batch.take compared.length).length = compared.length := by
      rw [List.length_take]
      omega
    split
    next hlazy =>
      refine ensures_pure ⟨_, _, compared, true, hsplit compared.length, ?_, ?_, hdue, ?_, ?_⟩
      · rw [← List.length_pos_iff_ne_nil, hlength]
        exact List.length_pos_of_mem hx
      · rw [version_append, hlength, hversion]
      · exact ⟨fun _ => .inr ⟨x, hx, hfail⟩, fun _ => rfl⟩
      · exact fun hquick => absurd (hlazy.symm.trans hquick) (by simp)
    · exact ensures_throw

/-- A skipped version is applied without a comparison. -/
theorem Covers.skip (hc : c.Sound Proves mapHash) (h : c.Covers s done (r :: rest))
    (hskip : c.version done ∈ c.txnsToSkip) (hroom : c.version done + 1 < 2 ^ 64) :
    Ensures (c.env.removeAndApply c.views s (c.version done) (c.version done + 1)) fun s' =>
      c.Covers s' (done ++ [r]) rest := by
  have happlied : c.Applied s done ([r] ++ rest) := h.toApplied
  have hepoch : c.env.WithinEpoch ([] ++ [r]) := withinEpoch_concat (by simp) r
  refine (happlied.removeAndApply hc (version_append c done [r]).symm hroom hepoch).mono ?_
  rintro s' ⟨happlied', -, hcompared, hseen⟩
  refine ⟨happlied', ?_, ?_, ?_⟩
  · rw [hcompared, h.compared, comparisonsDue_append]
    have hmem : c.count + done.length ∈ c.txnsToSkip := hskip
    simp [comparisonsDue, hmem]
  · rw [hcompared, hseen]
    exact h.seenError
  · rw [hcompared]
    exact h.quick

/-- A batch without skipped versions: what the machine has been compared with is applied. -/
theorem Covers.verify (hc : c.Sound Proves mapHash) (h : c.Covers s done (batch ++ rest))
    (hne : batch ≠ []) (hend : endVersion = c.version (done ++ batch))
    (hskip : ∀ v, c.version done ≤ v → v < endVersion → v ∉ c.txnsToSkip)
    (hroom : endVersion < 2 ^ 64) (hepoch : c.env.WithinEpoch batch) :
    Ensures (c.env.verifyExecution c.views c.lazyQuit s (c.version done) endVersion :
        Outcome (ReplayError H ε ε' S) _) fun p =>
      ∃ front back, batch = front ++ back ∧ front ≠ [] ∧ p.1 = c.version (done ++ front) ∧
        Ensures (c.env.removeAndApply c.views p.2 (c.version done) p.1) fun s' =>
          c.Covers s' (done ++ front) (back ++ rest) := by
  refine (h.toApplied.verifyExecution hc hne hend hskip hepoch).mono ?_
  rintro p ⟨front, back, compared, seenError, rfl, hfront, rfl, hdue, hseen, hquick⟩
  refine ⟨front, back, rfl, hfront, rfl, ?_⟩
  rw [List.append_assoc] at h
  have happlied : c.Applied { s with compared := s.compared ++ compared, seenError := seenError }
      done (front ++ (back ++ rest)) :=
    ⟨h.remaining, h.view, h.commits, h.result⟩
  have hroom' : c.version (done ++ front) < 2 ^ 64 := by
    rw [← List.append_assoc, version_append] at hend
    omega
  refine (happlied.removeAndApply hc rfl hroom' hepoch.left).mono ?_
  rintro s' ⟨happlied', hconsistent, hcompared, hseen'⟩
  refine ⟨happlied', ?_, ?_, ?_⟩
  · rw [hcompared, comparisonsDue_append, h.compared, hdue hconsistent]
    rfl
  · rw [hcompared, hseen', hseen, h.seenError]
    simp only [List.mem_append, or_and_right, exists_or, or_assoc]
  · rw [hcompared]
    intro hlazy x hx
    rcases List.mem_append.mp hx with hold | hnew
    · exact h.quick hlazy x hold
    · exact hquick hlazy x hnew

/-- The loop of an epoch: the fuel is the number of versions left, and each round takes at least
one of them. -/
theorem Covers.replayLoop (hc : c.Sound Proves mapHash) (hroom : endVersion < 2 ^ 64) (fuel : ℕ) :
    ∀ {s : Replay R K V H Tx Ev S E} {done part : List (RecordedTransaction K V H Tx Ev S)}
      {batchEnd : ℕ} {ends : List ℕ}, c.Covers s done (part ++ rest) →
      endVersion = c.version (done ++ part) → part.length ≤ fuel → c.env.WithinEpoch part →
      Environment.batchEnds c.txnsToSkip (c.version done) endVersion = batchEnd :: ends →
      Ensures (c.env.replayLoop c.views c.mode endVersion fuel (c.version done) batchEnd ends s)
        fun s' => c.Covers s' (done ++ part) rest := by
  induction fuel with
  | zero =>
    intro s done part batchEnd ends h hend hfuel _ _
    obtain rfl : part = [] := List.length_eq_zero_iff.mp (by omega)
    rw [List.append_nil] at hend ⊢
    rw [Environment.replayLoop, if_neg (by omega)]
    exact ensures_pure h
  | succ fuel ih =>
    intro s done part batchEnd ends h hend hfuel hepoch hends
    rw [Environment.replayLoop]
    have hlength := version_append c done part
    by_cases hlt : c.version done < endVersion
    · rw [if_pos hlt]
      obtain ⟨first, ends', heq, hfirst, hle, hskipped, hnone, hsame⟩ :=
        batchEnds_head c.txnsToSkip hlt.le
      obtain ⟨rfl, rfl⟩ := List.cons.inj (hends.symm.trans heq)
      by_cases hbegin : c.version done = batchEnd
      · -- the version is skipped
        rw [if_pos hbegin]
        obtain ⟨hmem, hnext⟩ := hskipped (hbegin ▸ hlt)
        rw [← hbegin] at hmem hnext
        obtain ⟨r, part, rfl⟩ := List.exists_cons_of_length_pos (show 0 < part.length by omega)
        refine (h.skip hc hmem (by omega)).bind fun s' hs' => ?_
        obtain ⟨next, ends'', hends', -⟩ := batchEnds_head c.txnsToSkip (Nat.succ_le_of_lt hlt)
        rw [Nat.succ_eq_add_one, hnext] at hends'
        subst hends'
        have hepoch' : c.env.WithinEpoch ([r] ++ part) := hepoch
        have hdone := version_append c done [r]
        rw [List.append_cons] at hend ⊢
        have hloop := ih hs' hend (by simpa using hfuel) hepoch'.right (by rw [hdone]; exact hnext)
        rw [hdone] at hloop
        exact hloop
      · -- the batch up to the next skipped version is verified
        rw [if_neg hbegin]
        obtain ⟨batch, tail, rfl, hbatch⟩ : ∃ batch tail, part = batch ++ tail ∧
            batch.length = batchEnd - c.version done :=
          ⟨_, _, (List.take_append_drop (batchEnd - c.version done) part).symm, by
            rw [List.length_take]
            omega⟩
        have hne : batch ≠ [] := by
          rw [← List.length_pos_iff_ne_nil]
          omega
        have hbatchEnd : batchEnd = c.version (done ++ batch) := by
          rw [version_append]
          omega
        rw [List.append_assoc] at h
        refine (h.verify hc hne hbatchEnd hnone (by omega) hepoch.left).bind ?_
        rintro ⟨next, s'⟩ ⟨front, back, rfl, hfront, rfl, happly⟩
        refine happly.bind fun s₂ h₂ => ?_
        have hpos := List.length_pos_of_ne_nil hfront
        have hdone := version_append c done front
        rw [← List.append_assoc] at h₂
        rw [List.append_assoc] at hepoch hfuel
        rw [List.append_assoc, ← List.append_assoc done] at hend ⊢
        refine ih h₂ hend ?_ hepoch.right (hsame _ ?_ ?_)
        · rw [List.length_append] at hfuel
          omega
        · omega
        · rw [List.length_append] at hbatch
          omega
    · rw [if_neg hlt]
      obtain rfl : part = [] := List.length_eq_zero_iff.mp (by omega)
      rw [List.append_nil]
      exact ensures_pure h

theorem Covers.removeAndReplayEpoch (hc : c.Sound Proves mapHash) (hroom : endVersion < 2 ^ 64)
    (h : c.Covers s done (part ++ rest)) (hend : endVersion = c.version (done ++ part))
    (hepoch : c.env.WithinEpoch part) :
    Ensures (c.env.removeAndReplayEpoch c.views c.mode s (c.version done) endVersion) fun s' =>
      c.Covers s' (done ++ part) rest := by
  have hlength := version_append c done part
  obtain ⟨batchEnd, ends, hends, -⟩ := batchEnds_head c.txnsToSkip
    (show c.version done ≤ endVersion by omega)
  have hends' : Environment.batchEnds c.mode.txnsToSkip (c.version done) endVersion =
      batchEnd :: ends := hends
  rw [Environment.removeAndReplayEpoch, hends']
  exact h.replayLoop hc hroom _ hend (by omega) hepoch hends

theorem Covers.replayEpochs (hc : c.Sound Proves mapHash)
    (rs : List (RecordedTransaction K V H Tx Ev S)) :
    ∀ {s : Replay R K V H Tx Ev S E} {done pending : List (RecordedTransaction K V H Tx Ev S)},
      c.Covers s done (pending ++ rs) →
      (∀ r ∈ pending, r.events.any c.env.isNewEpochEvent = false) →
      c.version (done ++ pending) + rs.length < 2 ^ 64 →
      Ensures (c.env.replayEpochs c.views c.mode (c.env.findEpochs (c.version done)
        (c.version (done ++ pending)) rs) s)
        fun s' => c.Covers s' (done ++ (pending ++ rs)) [] := by
  induction rs with
  | nil =>
    intro s done pending h hpending hroom
    rw [Environment.findEpochs, List.append_nil]
    split
    · have hepoch : c.env.WithinEpoch pending := fun front r back heq _ =>
        hpending r (by rw [heq]; simp)
      exact (h.removeAndReplayEpoch hc hroom rfl hepoch).bind fun _ h' => ensures_pure h'
    next hempty =>
      rw [version_append] at hempty
      obtain rfl : pending = [] := List.length_eq_zero_iff.mp (by omega)
      rw [List.append_nil]
      exact ensures_pure h
  | cons r rs ih =>
    intro s done pending h hpending hroom
    rw [List.length_cons] at hroom
    rw [List.append_cons] at h ⊢
    have hnext : c.version (done ++ pending) + 1 = c.version (done ++ (pending ++ [r])) := by
      rw [← List.append_assoc, version_append c (done ++ pending)]
      rfl
    rw [Environment.findEpochs, hnext]
    split
    · refine (h.removeAndReplayEpoch hc (by omega) rfl (withinEpoch_concat hpending r)).bind ?_
      intro s₁ h₁
      have hrest := @ih s₁ (done ++ (pending ++ [r])) [] h₁ (by simp)
        (by rw [List.append_nil]; omega)
      rw [List.append_nil, List.nil_append, List.append_assoc] at hrest
      exact hrest
    next hnot =>
      refine ih h ?_ (by omega)
      intro x hx
      rcases List.mem_append.mp hx with hold | hlast
      · exact hpending x hold
      · rw [List.mem_singleton.mp hlast]
        exact Bool.eq_false_iff.mpr hnot

end ReplayCase

section Coverage

variable {views : ReplayViews R K V P ε' Tx Ev S} {Represents : R → (K → Option V) → Prop}
  {Proves : P → R → K → Prop} {mapHash : (K → Option V) → H}
  {vm : (K → Option V) → Tx → TransactionOutput K V Ev S} {a : Progress K V}

/-- Replay in a verifying mode does not panic. Where it returns, the records have been applied in
order, each once; every version that is not skipped has been compared with what the machine gives
on the state of the records before it; in quick-quit mode all comparisons succeeded, and in
lazy-quit mode the flag is set if one failed. -/
theorem replay_covers (hpad : env.pad.Sound Represents Proves mapHash)
    (hhash : env.InjectiveHashes) (hviews : views.Sound env Represents Proves vm)
    {q : ChunkCommitQueue R K V H Tx Ev S E} {leaves : List H}
    (hview : q.latestView.Holds env Represents a leaves)
    (records : List (RecordedTransaction K V H Tx Ev S))
    (hroom : leaves.length + records.length < 2 ^ 64) (txnsToSkip : Finset ℕ)
    (lazyQuit seenBefore : Bool) (emptyView : ExecutedTrees R K V H) :
    Safe (env.replay views (.verify txnsToSkip lazyQuit) emptyView q seenBefore records) ∧
    ∀ q' seenError compared,
      Returns (env.replay views (.verify txnsToSkip lazyQuit) emptyView q seenBefore records)
        (q', seenError, compared) →
      (∃ chunk, q' = { q with chunksToCommit := q.chunksToCommit ++ [chunk] } ∧
        List.Forall₂ env.IsCommitOf (records.map (·.applied)) chunk.toCommit ∧
        (records ≠ [] → ∃ leaves', leaves'.length = leaves.length + records.length ∧
          chunk.resultView.Holds env Represents
            (a.run ((records.map (·.applied)).map env.parsed)) leaves')) ∧
      compared = comparisonsDue vm txnsToSkip a.current leaves.length records ∧
      (lazyQuit = false → ∀ c ∈ compared, c.Matches env) ∧
      (lazyQuit = true → seenBefore = false →
        (seenError = true ↔ ∃ c ∈ compared, ¬ c.Matches env)) := by
  have hcount : q.latestView.transactionAccumulator.numLeaves = leaves.length := by
    rw [hview.accumulator]
    rfl
  let c : ReplayCase R K V P H ε ε' Tx Ev S E :=
    ⟨env, views, Represents, vm, txnsToSkip, lazyQuit, seenBefore, a, leaves.length⟩
  have hstart : c.Covers ⟨⟨[], [], emptyView, none⟩, q.latestView, records, seenBefore, []⟩ []
      ([] ++ records) :=
    ⟨⟨rfl, ⟨leaves, rfl, hview⟩, .nil, fun hne => absurd rfl hne⟩, rfl, by simp [c], by simp⟩
  have hc : c.Sound Proves mapHash := ⟨hpad, hhash, hviews⟩
  obtain ⟨hsafe, hreturns⟩ := hstart.replayEpochs hc records (by simp) hroom
  rw [Environment.replay]
  simp only [hcount]
  refine ⟨safe_bind.mpr ⟨hsafe, fun _ _ => safe_pure⟩, ?_⟩
  intro q' seenError compared hresult
  obtain ⟨s, hs, hresult⟩ := returns_bind.mp hresult
  cases returns_pure.mp hresult
  have h := hreturns s hs
  refine ⟨⟨_, rfl, h.commits, fun hne => ?_⟩, h.compared, h.quick, fun _ hclear => ?_⟩
  · rw [h.result hne]
    exact h.view
  · rw [h.seenError, show c.seenBefore = false from hclear]
    simp [c]

end Coverage

/-- The transactions of this machine are numbers to add, and one that adds nothing ends the
epoch. -/
def adderOutput (m : Bool → Option ℕ) (txn : ℕ) : TransactionOutput Bool ℕ Unit Unit where
  writeSet := ⟨[(true, .modification ((m true).getD 0 + txn))], List.nodup_singleton _⟩
  events := if txn = 0 then [()] else []
  gasUsed := 7
  status := .keep ()

def adderOutputs : List ℕ → (Bool → Option ℕ) → List (TransactionOutput Bool ℕ Unit Unit)
  | [], _ => []
  | txn :: txns, m =>
    adderOutput m txn :: adderOutputs txns (overlay (adderOutput m txn).writeSet.updates m)

theorem length_adderOutputs (txns : List ℕ) : ∀ m, (adderOutputs txns m).length = txns.length := by
  induction txns with
  | nil => exact fun _ => rfl
  | cons txn txns ih => exact fun m => congrArg Nat.succ (ih _)

def opCode : WriteOp ℕ → ℕ × Option ℕ
  | .creation value => (0, some value)
  | .modification value => (1, some value)
  | .deletion => (2, none)

theorem opCode_injective : Function.Injective opCode := by
  intro op op' h
  cases op <;> cases op' <;> simp_all [opCode]

/-- Hashes are codes. -/
def adderEnvironment : Environment (Bool → Option ℕ) Bool ℕ Unit ℕ Empty ℕ Unit Unit Unit where
  pad := ⟨fun m => Encodable.encode (m true, m false), mapPad.update, mapPad.sizes⟩
  accumulator := ⟨Nat.pair, 0⟩
  kind _ := .userTransaction
  isNewEpochEvent _ := true
  parseValidatorSet _ := some ()
  transactionHash txn := txn
  writeSetHash writeSet := Encodable.encode (writeSet.ops.map fun op => (op.1, opCode op.2))
  eventRootHash := List.length
  infoHash info := Encodable.encode (info.transactionHash, info.stateChangeHash,
    info.eventRootHash, info.stateCheckpointHash, info.gasUsed)

def adderViews : ReplayViews (Bool → Option ℕ) Bool ℕ Unit Empty ℕ Unit Unit where
  execute txns m := pure (adderOutputs txns m)
  primeCache _ m := pure ⟨[(true, m true), (false, m false)], ()⟩

def adderQueue : ChunkCommitQueue (Bool → Option ℕ) Bool ℕ ℕ ℕ Unit Unit Unit :=
  ⟨⟨emptyDelta, InMemoryAccumulator.summary adderEnvironment.accumulator [], rfl⟩, []⟩

theorem adderEnvironment_injective : adderEnvironment.InjectiveHashes where
  writeSet := fun ⟨ops, hops⟩ ⟨ops', hops'⟩ h => by
    have hcode : Function.Injective fun op : Bool × WriteOp ℕ => (op.1, opCode op.2) :=
      Function.injective_id.prodMap opCode_injective
    obtain rfl : ops = ops' := hcode.list_map (Encodable.encode_injective h)
    rfl
  events := List.length_injective
  info := fun ⟨_, _, _, _, _, _⟩ ⟨_, _, _, _, _, _⟩ h => by
    simpa using Encodable.encode_injective h

theorem adderViews_sound :
    adderViews.Sound adderEnvironment (fun r m => r = m) (fun _ _ _ => True) adderOutput where
  execute_safe := fun _ _ => safe_pure
  execute := by
    intro r m hr txns outputs h
    obtain rfl := returns_pure.mp h
    subst hr
    clear h
    induction txns generalizing r with
    | nil => rfl
    | cons txn txns ih => exact ⟨_, rfl, length_adderOutputs _ _, fun _ _ => ih⟩
  primeCache_safe := fun _ _ => safe_pure
  primeCache := by
    intro r m hr writeSets cache h writeSet _ k _
    obtain rfl := returns_pure.mp h
    subst hr
    cases k <;> exact ⟨rfl, trivial⟩

/-- A record of the value after a transaction. -/
def adderRecord (txn value gasUsed : ℕ) (stateCheckpointHash : Option ℕ) :
    RecordedTransaction Bool ℕ ℕ ℕ Unit Unit where
  transaction := txn
  info :=
    { transactionHash := txn
      stateChangeHash := Encodable.encode [(true, 1, some value)]
      eventRootHash := if txn = 0 then 1 else 0
      stateCheckpointHash := stateCheckpointHash
      gasUsed := gasUsed
      status := () }
  writeSet := ⟨[(true, .modification value)], List.nodup_singleton _⟩
  events := if txn = 0 then [()] else []

/-- Version 1 is broken, version 2 ends the epoch, and version 3 is recorded with other gas. -/
def adderRecords : List (RecordedTransaction Bool ℕ ℕ ℕ Unit Unit) :=
  [adderRecord 3 3 7 none, adderRecord 2 9 7 none,
    adderRecord 0 9 7 (some (Encodable.encode (some 9, (none : Option ℕ)))),
    adderRecord 1 10 8 none]

def adderReplay := adderEnvironment.replay adderViews (.verify {1} true) adderQueue.persistedView
  adderQueue false adderRecords

theorem replay_covers_adder :
    ∃ q' compared, Returns adderReplay (q', true, compared) ∧
      q'.latestView.state.current.root true = some 10 ∧
      compared.map (fun c => (c.version, c.output.writeSet.updates)) =
        [(0, [(true, some 3)]), (2, [(true, some 9)]), (3, [(true, some 10)])] := by
  have hpad : adderEnvironment.pad.Sound (fun r m => r = m) (fun _ _ _ => True)
      fun m => Encodable.encode (m true, m false) :=
    ⟨fun h => h ▸ rfl, fun {_ _ _ p} => mapPad_sound.update (p := p)⟩
  have hview : adderQueue.latestView.Holds adderEnvironment (fun r m => r = m) emptyProgress [] :=
    ⟨emptyDelta_realises, rfl⟩
  obtain ⟨-, hcovers⟩ := replay_covers hpad adderEnvironment_injective adderViews_sound hview
    adderRecords (by decide) {1} true false adderQueue.persistedView
  obtain ⟨⟨q', seenError, compared⟩, hreturns⟩ : ∃ result, Returns adderReplay result := by
    have hok : adderReplay.run.map Except.isOk = some true := by decide +kernel
    unfold Returns
    rcases hrun : adderReplay.run with _ | (err | result)
    · simp [hrun] at hok
    · simp [hrun, Except.isOk, Except.toBool] at hok
    · exact ⟨result, rfl⟩
  obtain ⟨⟨chunk, rfl, -, hresult⟩, rfl, -, hseen⟩ := hcovers _ _ _ hreturns
  obtain ⟨_, -, hholds⟩ := hresult (List.cons_ne_nil _ _)
  have hroot : chunk.resultView.state.current.root = _ := hholds.state.current.represents
  obtain rfl : seenError = true := by
    refine (hseen rfl rfl).mpr ⟨_, List.mem_of_getLast? rfl, fun h => ?_⟩
    exact absurd (Comparison.matches_iff.mp h).2.1 (by decide)
  refine ⟨_, _, hreturns, ?_, by decide⟩
  change chunk.resultView.state.current.root true = _
  rw [hroot]
  decide

end Anthemius.Executor

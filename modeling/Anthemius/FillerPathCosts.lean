import Anthemius.DependencyFiller
import Anthemius.ReleasePlan
import Mathlib.Data.List.GetD

/-! The finish times of the filler are path costs of the dependency graph it builds. The
scheduler computes the same costs from the graph and the gas estimates, whatever the order in
which the parents of a transaction are listed, and no sum of it overflows. -/
namespace Anthemius
open CriticalPaths CheckedLoops LittleEndianBytes

/-! ## The filler -/

/-- A scan of a map that stores the finish times of its positions arrives when the last
dependency is finished. -/
theorem Scan.Covers.arrivalTime_eq_sup {lastTouched : LastTouched} {keys : List Bytes}
    {scan : Scan} (h : scan.Covers lastTouched keys) {finish : ℕ → ℕ}
    (hfinish : ∀ k t i, lastTouched k = some (t, i) → finish i = t) :
    scan.arrivalTime = scan.dependencies.sup finish := by
  apply le_antisymm
  · rcases h.arrivalTime_mem with hzero | ⟨k, hk, i, hki⟩
    · rw [hzero]
      exact Nat.zero_le _
    · rw [← hfinish k _ i hki]
      exact Finset.le_sup ((h.mem_dependencies i).mpr ⟨k, hk, _, hki⟩)
  · refine Finset.sup_le fun i hi => ?_
    obtain ⟨k, hk, t, hki⟩ := (h.mem_dependencies i).mp hi
    rw [hfinish k t i hki]
    exact h.le_arrivalTime k hk t i hki

namespace DependencyFiller
variable {T : Type} (f : DependencyFiller T)

def weight (j : ℕ) : ℕ := f.estimatedGas.getD j 0

def parents (j : ℕ) : Finset ℕ := f.dependencyGraph.getD j ∅

/-- The finish time that was computed when the transaction was accepted. -/
def finishTime (j : ℕ) : ℕ := (f.accepted.map Prod.snd).getD j 0

/-- The lists of the filler describe the accepted transactions, their number fits into the
index type, and the stored times are finish times of the stored positions. -/
structure Tracks (f : DependencyFiller T) (lastTouched : LastTouched) : Prop where
  maxTxns_le : f.maxTxns ≤ 2 ^ 16
  block_eq : f.block = f.accepted.map fun p => p.1.tx
  gas_eq : f.estimatedGas = f.accepted.map fun p => p.1.gasUsed
  graph_length : f.dependencyGraph.length = f.accepted.length
  length_le : f.accepted.length ≤ 2 ^ 16
  room : f.full = false → f.accepted.length < 2 ^ 16
  total_le : f.totalEstimatedGas ≤ 2 ^ 16 * f.accepted.length
  path : IsPathCost f.weight f.parents f.accepted.length f.finishTime
  stored : ∀ k t i, lastTouched k = some (t, i) → i < f.accepted.length ∧ f.finishTime i = t

variable {f} {lastTouched : LastTouched}

theorem Tracks.block_length (h : f.Tracks lastTouched) : f.block.length = f.accepted.length := by
  rw [h.block_eq, List.length_map]

theorem Tracks.gas_length (h : f.Tracks lastTouched) :
    f.estimatedGas.length = f.accepted.length := by
  rw [h.gas_eq, List.length_map]

theorem Tracks.weight_le (h : f.Tracks lastTouched) {j : ℕ} (hj : j < f.accepted.length) :
    f.weight j ≤ 2 ^ 16 - 1 := by
  have hlt := (f.accepted.get ⟨j, hj⟩).1.gasUsed_lt
  simp only [weight, h.gas_eq, List.getD_eq_getElem?_getD, List.getElem?_map,
    List.getElem?_eq_getElem hj, Option.map_some, Option.getD_some]
  exact Nat.le_sub_one_of_lt hlt

theorem Tracks.finishTime_le (h : f.Tracks lastTouched) {j : ℕ} (hj : j < f.accepted.length) :
    f.finishTime j + 2 ^ 16 ≤ 2 ^ 32 := by
  have hle := h.path.le_mul (fun i hi => h.weight_le hi) j hj
  have hlen := h.length_le
  omega

theorem Tracks.new {gasPerCore maxTxns cores : ℕ} {f : DependencyFiller T}
    (hnew : new gasPerCore maxTxns cores = some f) (hmax : maxTxns ≤ 2 ^ 16) :
    f.Tracks fun _ => none := by
  obtain rfl := eq_of_new hnew
  refine ⟨hmax, rfl, rfl, rfl, Nat.zero_le _, fun _ => Nat.two_pow_pos 16, le_rfl, ?_, nofun⟩
  exact ⟨nofun, nofun⟩

end DependencyFiller

namespace Fill
variable {T : Type} {goodBlock : Bool} {c : Candidate T} {s s' : Fill T}

theorem Step.cores_eq (h : Step goodBlock c s s') : s'.filler.cores = s.filler.cores := by
  cases h <;> rfl

section Accept
variable {deps : Finset ℕ} {finish j : ℕ}

theorem accept_length : (s.accept c deps finish).filler.accepted.length =
    s.filler.accepted.length + 1 := by
  simp [accept]

theorem accept_weight (h : s.filler.Tracks s.lastTouched) (hj : j < s.filler.accepted.length) :
    (s.accept c deps finish).filler.weight j = s.filler.weight j :=
  List.getD_append _ _ _ _ (h.gas_length ▸ hj)

theorem accept_weight_last (h : s.filler.Tracks s.lastTouched) :
    (s.accept c deps finish).filler.weight s.filler.accepted.length = c.gasUsed := by
  simp [DependencyFiller.weight, accept, ← h.gas_length]

theorem accept_parents (h : s.filler.Tracks s.lastTouched) (hj : j < s.filler.accepted.length) :
    (s.accept c deps finish).filler.parents j = s.filler.parents j :=
  List.getD_append _ _ _ _ (h.graph_length ▸ hj)

theorem accept_parents_last (h : s.filler.Tracks s.lastTouched) :
    (s.accept c deps finish).filler.parents s.filler.accepted.length = deps := by
  simp [DependencyFiller.parents, accept, ← h.graph_length]

theorem accept_finishTime (hj : j < s.filler.accepted.length) :
    (s.accept c deps finish).filler.finishTime j = s.filler.finishTime j := by
  simp only [DependencyFiller.finishTime, accept, List.map_append]
  exact List.getD_append _ _ _ _ (by rwa [List.length_map])

theorem accept_finishTime_last :
    (s.accept c deps finish).filler.finishTime s.filler.accepted.length = finish := by
  simp [DependencyFiller.finishTime, accept]

theorem accept_lastTouched (h : s.filler.Tracks s.lastTouched) (hfull : s.filler.full = false)
    (k : Bytes) : (s.accept c deps finish).lastTouched k =
      if k ∈ c.touched ∧ currMax s.lastTouched k < finish then
        some (finish, s.filler.accepted.length)
      else s.lastTouched k := by
  simp only [accept, h.block_length, Nat.mod_eq_of_lt (h.room hfull), foldl_touch]

end Accept

/-- The accepted transaction is one more node, whose parents are the positions it found. -/
theorem accept_tracks (h : s.filler.Tracks s.lastTouched) {scan : Scan}
    (hfull : s.filler.full = false) (hscan : scan.Covers s.lastTouched c.consulted) :
    (s.accept c scan.dependencies (scan.arrivalTime + c.gasUsed)).filler.Tracks
      (s.accept c scan.dependencies (scan.arrivalTime + c.gasUsed)).lastTouched := by
  have hstored : ∀ k t i, s.lastTouched k = some (t, i) →
      (s.accept c scan.dependencies (scan.arrivalTime + c.gasUsed)).filler.finishTime i = t := by
    intro k t i hki
    obtain ⟨hi, ht⟩ := h.stored k t i hki
    rw [accept_finishTime hi, ht]
  have hearlier : ∀ p ∈ scan.dependencies, p < s.filler.accepted.length := by
    intro p hp
    obtain ⟨k, -, t, hki⟩ := (hscan.mem_dependencies p).mp hp
    exact (h.stored k t p hki).1
  have hroom := h.room hfull
  constructor
  case maxTxns_le => exact h.maxTxns_le
  case block_eq => simp [accept, h.block_eq]
  case gas_eq => simp [accept, h.gas_eq]
  case graph_length => simp [accept, h.graph_length]
  case length_le =>
    rw [accept_length]
    exact hroom
  case room =>
    intro hnot
    have hlt : s.filler.accepted.length + 1 < s.filler.maxTxns := by
      simpa [accept, hfull, h.block_length] using hnot
    rw [accept_length]
    exact hlt.trans_le h.maxTxns_le
  case total_le =>
    have hold := h.total_le
    have hgas := c.gasUsed_lt
    rw [accept_length]
    simp only [accept]
    omega
  case path =>
    rw [accept_length]
    refine (h.path.congr (fun j hj => accept_weight h hj) (fun j hj => accept_parents h hj)
      fun j hj => accept_finishTime hj).succ ?_ ?_
    · rwa [accept_parents_last h]
    · rw [accept_finishTime_last, accept_parents_last h, accept_weight_last h,
        ← hscan.arrivalTime_eq_sup hstored]
      exact Nat.add_comm _ _
  case stored =>
    intro k t i hki
    rw [accept_length]
    rw [accept_lastTouched h hfull] at hki
    split at hki
    · cases hki
      exact ⟨Nat.lt_succ_self _, accept_finishTime_last⟩
    · exact ⟨(h.stored k t i hki).1.trans (Nat.lt_succ_self _), hstored k t i hki⟩

theorem Step.tracks (h : Step goodBlock c s s') (ht : s.filler.Tracks s.lastTouched) :
    s'.filler.Tracks s'.lastTouched := by
  cases h with
  | full | user | skip => exact ht
  | exceeds => exact { ht with room := nofun }
  | accept scan hfull _ hscan => exact accept_tracks ht hfull hscan

end Fill

theorem DependencyFiller.addAll_tracks {T : Type} {f : DependencyFiller T}
    {batch : List (Candidate T)} {lastTouched : LastTouched} {users : Finset Bytes}
    {goodBlock flag : Bool} {s : Fill T}
    (h : f.addAll batch lastTouched users goodBlock = some (s, flag)) (ht : f.Tracks lastTouched) :
    s.filler.Tracks s.lastTouched :=
  addAll_keeps h ht fun _ _ _ _ htracks hstep => hstep.tracks htracks

/-! ## Sequences of calls -/

/-- A call on a filler. The map is shared by the calls; each may come with its own set of
skipped users. -/
inductive FillerCall (T : Type)
  | addAll (batch : List (Candidate T)) (skippedUsers : Finset Bytes) (goodBlock : Bool)
  | setGasPerCore (lastMax : ℕ)

/-- The transactions that are offered in a call. -/
def FillerCall.offered {T : Type} : FillerCall T → List (Candidate T)
  | .addAll batch _ _ => batch
  | .setGasPerCore _ => []

/-- A filler with the map its caller keeps. -/
abbrev FillerState (T : Type) := DependencyFiller T × LastTouched

variable {T : Type}

def FillerState.call (s : FillerState T) : FillerCall T → Option (FillerState T)
  | .addAll batch users goodBlock =>
    (s.1.addAll batch s.2 users goodBlock).map fun r => (r.1.filler, r.1.lastTouched)
  | .setGasPerCore lastMax => (s.1.setGasPerCore lastMax).map (·, s.2)

def FillerState.run (s : FillerState T) (calls : List (FillerCall T)) : Option (FillerState T) :=
  calls.foldlM FillerState.call s

namespace FillerState
variable {s s' : FillerState T} {c : FillerCall T} {calls : List (FillerCall T)}

theorem call_keeps {I : DependencyFiller T → LastTouched → Prop} (h : s.call c = some s')
    (hI : I s.1 s.2)
    (hstep : ∀ goodBlock, ∀ x ∈ c.offered, ∀ t t', I t.filler t.lastTouched →
      Fill.Step goodBlock x t t' → I t'.filler t'.lastTouched)
    (hset : ∀ f lastTouched gas, I f lastTouched → I { f with gasPerCore := gas } lastTouched) :
    I s'.1 s'.2 := by
  cases c with
  | addAll batch users goodBlock =>
    obtain ⟨⟨t, flag⟩, hadd, rfl⟩ := Option.map_eq_some_iff.mp h
    exact DependencyFiller.addAll_keeps hadd hI (hstep goodBlock)
  | setGasPerCore lastMax =>
    obtain ⟨f, hf, rfl⟩ := Option.map_eq_some_iff.mp h
    unfold DependencyFiller.setGasPerCore at hf
    split at hf
    · cases hf
    · cases hf
      exact hset s.1 s.2 _ hI

theorem call_tracks (h : s.call c = some s') (ht : s.1.Tracks s.2) : s'.1.Tracks s'.2 :=
  call_keeps h ht (fun _ _ _ _ _ htracks hstep => hstep.tracks htracks)
    fun _ _ _ htracks => { htracks with }

theorem run_tracks (h : s.run calls = some s') (ht : s.1.Tracks s.2) : s'.1.Tracks s'.2 :=
  foldlM_keeps (I := fun s : FillerState T => s.1.Tracks s.2) ht
    (fun _ _ _ _ htracks hcall => call_tracks hcall htracks) h

/-- With at least one core no call panics. -/
theorem call_returns (hcores : s.1.cores ≠ 0) (ht : s.1.Tracks s.2) :
    ∃ s', s.call c = some s' ∧ s'.1.cores ≠ 0 ∧ s'.1.Tracks s'.2 := by
  cases c with
  | addAll batch users goodBlock =>
    obtain ⟨t, hfold, hkeep⟩ := foldlM_returns
      (I := fun t : Fill T => t.filler.cores ≠ 0 ∧ t.filler.Tracks t.lastTouched)
      (f := Fill.step goodBlock) (s := ⟨s.1, s.2, users, [], 0⟩) batch ⟨hcores, ht⟩ <| by
        rintro c t ⟨hc, htracks⟩
        have htime : ∀ k x i, t.lastTouched k = some (x, i) → x + 2 ^ 16 ≤ 2 ^ 32 := by
          intro k x i hki
          obtain ⟨hi, rfl⟩ := htracks.stored k x i hki
          exact htracks.finishTime_le hi
        have htotal : t.filler.totalEstimatedGas + 2 ^ 16 ≤ 2 ^ 64 := by
          have := htracks.total_le
          have := htracks.length_le
          omega
        obtain ⟨t', hstep⟩ : ∃ t', Fill.step goodBlock t c = some t' :=
          Fill.step_returns hc htime htotal
        have hkind := Fill.step_eq_some hstep
        exact ⟨t', hstep, hkind.cores_eq ▸ hc, hkind.tracks htracks⟩
    refine ⟨(t.filler, t.lastTouched), ?_, hkeep⟩
    simp [call, DependencyFiller.addAll, hfold]
  | setGasPerCore lastMax =>
    exact ⟨({ s.1 with gasPerCore := lastMax / s.1.cores }, s.2),
      by simp [call, DependencyFiller.setGasPerCore, hcores], hcores, { ht with }⟩

theorem run_returns (hcores : s.1.cores ≠ 0) (ht : s.1.Tracks s.2) (calls : List (FillerCall T)) :
    ∃ s', s.run calls = some s' := by
  obtain ⟨s', hrun, -⟩ := foldlM_returns
    (I := fun s : FillerState T => s.1.cores ≠ 0 ∧ s.1.Tracks s.2) calls ⟨hcores, ht⟩
    fun _ _ h => call_returns h.1 h.2
  exact ⟨s', hrun⟩

/-- What a call with `good_block` set accepts stays within the gas per core. -/
theorem call_cost (h : s.call c = some s') (hgood : ∀ batch users, c ≠ .addAll batch users false) :
    ∃ new, s'.1.accepted = s.1.accepted ++ new ∧ ∀ p ∈ new, p.2 ≤ s.1.gasPerCore := by
  cases c with
  | addAll batch users goodBlock =>
    obtain ⟨⟨t, flag⟩, hadd, rfl⟩ := Option.map_eq_some_iff.mp h
    obtain ⟨new, hnew⟩ := DependencyFiller.addAll_divides hadd
    refine ⟨new, hnew.accepted_eq, hnew.cost_le ?_⟩
    cases goodBlock with
    | true => rfl
    | false => exact absurd rfl (hgood batch users)
  | setGasPerCore lastMax =>
    obtain ⟨f, hset, rfl⟩ := Option.map_eq_some_iff.mp h
    unfold DependencyFiller.setGasPerCore at hset
    split at hset
    · cases hset
    · cases hset
      exact ⟨[], (List.append_nil _).symm, nofun⟩

theorem run_cost (h : s.run calls = some s') (hstart : s.1.accepted = [])
    (hgood : ∀ batch users, FillerCall.addAll batch users false ∉ calls) {j : ℕ}
    (hj : j < s'.1.accepted.length) :
    ∃ before call after t, calls = before ++ call :: after ∧ s.run before = some t ∧
      s'.1.finishTime j ≤ t.1.gasPerCore := by
  induction calls using List.reverseRecOn generalizing s' with
  | nil =>
    cases h
    rw [hstart] at hj
    cases hj
  | append_singleton calls c ih =>
    rw [run, foldlM_concat] at h
    obtain ⟨t, ht, hc⟩ := Option.bind_eq_some_iff.mp h
    obtain ⟨new, hnew, hcost⟩ := call_cost hc fun batch users heq =>
      hgood batch users (heq ▸ List.mem_append_right _ List.mem_cons_self)
    by_cases hold : j < t.1.accepted.length
    · have hgood' : ∀ batch users, FillerCall.addAll batch users false ∉ calls :=
        fun batch users hmem => hgood batch users (List.mem_append_left _ hmem)
      obtain ⟨before, call, after, u, rfl, hu, hle⟩ := ih ht hgood' hold
      refine ⟨before, call, after ++ [c], u, by simp, hu, ?_⟩
      rwa [DependencyFiller.finishTime, hnew, List.map_append,
        List.getD_append _ _ _ _ (by rwa [List.length_map])]
    · refine ⟨calls, c, [], t, rfl, ht, ?_⟩
      rw [hnew, List.length_append] at hj
      have hlt : j - t.1.accepted.length < new.length := by omega
      rw [DependencyFiller.finishTime, hnew, List.map_append,
        List.getD_append_right _ _ _ _ (by rw [List.length_map]; exact not_lt.mp hold),
        List.length_map, List.getD_eq_getElem _ _ (by rwa [List.length_map]), List.getElem_map]
      exact hcost _ (List.getElem_mem hlt)

end FillerState

/-- For every sequence of calls on a new filler the lists have one entry per transaction of the
block, dependencies are earlier positions, and the scheduler computes from the graph, in
whatever order it is listed, the finish times of the filler without overflow. If all batches
were added with `good_block` set, none exceeds the gas per core in force at some call. -/
theorem FillerState.schedulerCost_eq_finishTime {gasPerCore maxTxns cores : ℕ}
    {f : DependencyFiller T} (hnew : DependencyFiller.new gasPerCore maxTxns cores = some f)
    (hmax : maxTxns ≤ 2 ^ 16) (calls : List (FillerCall T)) :
    (cores ≠ 0 → ∃ s, FillerState.run (f, fun _ => none) calls = some s) ∧
    ∀ s, FillerState.run (f, fun _ => none) calls = some s →
      s.1.block = s.1.accepted.map (fun p => p.1.tx) ∧
      s.1.dependencyGraph.length = s.1.block.length ∧
      s.1.estimatedGas.length = s.1.block.length ∧
      (∀ j < s.1.block.length, ∀ p ∈ s.1.parents j, p < j) ∧
      ∀ graph, s.1.GetDependencyGraph graph →
        ∃ plan, Plan.new s.1.block.length graph s.1.estimatedGas = some plan ∧
          ∀ j < s.1.block.length,
            plan.pathCost j = s.1.finishTime j ∧ plan.pathCost j < 2 ^ 32 ∧
            ((∀ batch users, .addAll batch users false ∉ calls) →
              ∃ before call after t, calls = before ++ call :: after ∧
                FillerState.run (f, fun _ => none) before = some t ∧
                plan.pathCost j ≤ t.1.gasPerCore) := by
  have htracks := DependencyFiller.Tracks.new hnew hmax
  have hstart : f.accepted = [] ∧ f.cores = cores := by
    rw [DependencyFiller.eq_of_new hnew]
    exact ⟨rfl, rfl⟩
  refine ⟨fun hcores => run_returns (hstart.2 ▸ hcores) htracks calls, fun s hrun => ?_⟩
  have h := run_tracks hrun htracks
  have hlen := h.block_length
  refine ⟨h.block_eq, h.graph_length.trans hlen.symm, h.gas_length.trans hlen.symm, ?_,
    fun graph hgraph => ?_⟩
  · rw [hlen]
    exact h.path.earlier
  · have hlength : graph.length = s.1.accepted.length := hgraph.length_eq.trans h.graph_length
    have hparents : ∀ j < s.1.accepted.length, (graph.getD j []).toFinset = s.1.parents j := by
      intro j hj
      rw [DependencyFiller.parents, List.getD_eq_getElem _ _ (hlength ▸ hj),
        List.getD_eq_getElem _ _ (h.graph_length ▸ hj)]
      exact hgraph.get _ _
    have hbound : ∀ j < s.1.accepted.length, s.1.finishTime j < 2 ^ 32 := by
      intro j hj
      have := h.finishTime_le hj
      omega
    obtain ⟨plan, hplan, ⟨hcost, -, -⟩⟩ :=
      Plan.new_computes h.gas_length.ge hlength.ge hparents h.path hbound
    rw [hlen]
    refine ⟨plan, hplan, fun j hj => ⟨hcost j hj, hcost j hj ▸ hbound j hj, fun hgood => ?_⟩⟩
    rw [hcost j hj]
    exact run_cost hrun hstart.1 hgood hj

/-- A transaction on keys of one byte; no such key is the address of a sender. -/
def Candidate.onBytes (sender : UInt8) (nonce : ℕ) (reads writes : List UInt8) (gas : UInt32) :
    Candidate ℕ where
  writeSet := writes.map fun b => .raw [b]
  readSet := reads.map fun b => .raw [b]
  gas := gas
  tx := ⟨[0, sender], nonce⟩

/-- The second transaction reads what the first writes; the third has the sender of the first
and reads what the second writes. -/
def chainCalls : List (FillerCall ℕ) :=
  [.addAll [.onBytes 1 0 [] [7] 50, .onBytes 2 0 [7] [8] 30] ∅ true, .setGasPerCore 40,
    .addAll [.onBytes 1 1 [8] [] 20] ∅ true]

theorem FillerState.schedulerCost_chainCalls :
    ∃ s plan, FillerState.run (⟨10, 20, 3, 2, 0, false, [], [], [], []⟩, fun _ => none) chainCalls =
        some s ∧
      s.1.dependencyGraph = [∅, {0}, {0, 1}] ∧
      Plan.new 3 [[], [0], [1, 0]] [5, 3, 2] = some plan ∧ plan.pathCost 2 = s.1.finishTime 2 := by
  have hnew : DependencyFiller.new 10 3 2 =
      some (⟨10, 20, 3, 2, 0, false, [], [], [], []⟩ : DependencyFiller ℕ) := rfl
  obtain ⟨hreturns, hall⟩ :=
    FillerState.schedulerCost_eq_finishTime hnew (by decide) chainCalls
  obtain ⟨s, hrun⟩ := hreturns (by decide)
  have hlists : (FillerState.run (⟨10, 20, 3, 2, 0, false, [], [], [], []⟩, fun _ => none)
      chainCalls).map (fun s => (s.1.dependencyGraph, s.1.estimatedGas, s.1.block.length)) =
      some ([∅, {0}, {0, 1}], [5, 3, 2], 3) := by decide +kernel
  rw [hrun, Option.map_some, Option.some.injEq, Prod.mk.injEq, Prod.mk.injEq] at hlists
  obtain ⟨hgraph, hgas, hlen⟩ := hlists
  obtain ⟨-, -, -, -, hplan⟩ := hall s hrun
  obtain ⟨plan, hnew, hcost⟩ := hplan [[], [0], [1, 0]] (by
    rw [DependencyFiller.GetDependencyGraph, hgraph]
    exact .cons rfl (.cons rfl (.cons (by decide) .nil)))
  rw [hlen, hgas] at hnew
  exact ⟨s, plan, hrun, hgraph, hnew, (hcost 2 (hlen ▸ by decide)).1⟩

end Anthemius

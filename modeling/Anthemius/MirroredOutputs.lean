import Anthemius.DependencyWaits

/-!
# The multi-version map mirrors the recorded outputs

Between two executions of a transaction its entries in the multi-version map are the updates
of its last recorded output, and they are estimates only after an abort. Hence the three
updates that panic on a missing or a newer entry never do.
-/
namespace Anthemius
open UpdateLists

variable {K P E : Type} {m : ℕ}

namespace Speculation
open ExecutionStatus
variable [DecidableEq K] {job : Job K P E} {d : Discipline} {w : Fin m} {s s' : Speculation K P E m}

/-! ## The history of the statuses -/

/-- The history tells which incarnations have been executed and which have been aborted. -/
structure PastInvariant (s : Speculation K P E m) : Prop where
  executed_iff : ∀ i k, .executed (i, k) ∈ s.history ↔ 4 * k + 2 ≤ (s.status i).rank
  aborted : ∀ i k, 4 * k + 3 < (s.status i).rank ∨ s.status i = .aborting k →
    .aborted (i, k) ∈ s.history

omit [DecidableEq K] in
theorem pastInvariant_new : PastInvariant (new : Speculation K P E m) where
  executed_iff i k := by simp [new, rank]
  aborted i k h := by simp [new, rank] at h

omit [DecidableEq K] in
theorem PastInvariant.advance (h : PastInvariant s) {i : TxnIndex} {st : ExecutionStatus}
    {e : List Event} (hst : s'.status = Function.update s.status i st)
    (hhist : s'.history = e ++ s.history) (hev : ∀ v, .executed v ∉ e)
    (hrank : ∀ k, 4 * k + 2 ≤ st.rank ↔ 4 * k + 2 ≤ (s.status i).rank)
    (habort : ∀ k, 4 * k + 3 < st.rank ∨ st = .aborting k →
      4 * k + 3 < (s.status i).rank ∨ s.status i = .aborting k ∨ .aborted (i, k) ∈ e) :
    PastInvariant s' where
  executed_iff j k := by
    rw [hhist, List.mem_append, or_iff_right (hev _), h.executed_iff, hst]
    by_cases hj : j = i
    · rw [hj, Function.update_self, hrank]
    · rw [Function.update_of_ne hj]
  aborted j k hj := by
    rw [hst] at hj
    rw [hhist, List.mem_append]
    rw [Function.update_apply] at hj
    split_ifs at hj with hji
    · subst hji
      rcases habort k hj with hk | hk | hk
      · exact .inr (h.aborted j k (.inl hk))
      · exact .inr (h.aborted j k (.inr hk))
      · exact .inl hk
    · exact .inr (h.aborted j k hj)

omit [DecidableEq K] in
/-- A step that is neither the end of an execution nor of an abort, to a status with the same
incarnations behind it. -/
theorem PastInvariant.keep (h : PastInvariant s) {i : TxnIndex} {st : ExecutionStatus}
    {e : Event} (hst : s'.status = Function.update s.status i st)
    (hhist : s'.history = e :: s.history) (hev : ∀ v, e ≠ .executed v)
    (hrank : ∀ k, 4 * k + 2 ≤ st.rank ↔ 4 * k + 2 ≤ (s.status i).rank)
    (hlast : ∀ k, 4 * k + 3 < st.rank → 4 * k + 3 < (s.status i).rank)
    (hno : ∀ k, st ≠ .aborting k) : PastInvariant s' := by
  refine h.advance (e := [e]) hst hhist (fun v hv => ?_) hrank fun k hk => .inl ?_
  · exact hev v (List.mem_singleton.mp hv).symm
  · exact hk.elim (hlast k) fun hk => absurd hk (hno k)

omit [DecidableEq K] in
theorem PastInvariant.execute (h : PastInvariant s) {v : Version}
    (hold : s.status v.1 = .executing v.2)
    (hst : s'.status = Function.update s.status v.1 (.executed v.2))
    (hhist : s'.history = .executed v :: s.history) : PastInvariant s' where
  executed_iff j k := by
    rw [hhist, List.mem_cons, Event.executed.injEq, h.executed_iff, hst]
    by_cases hj : j = v.1
    · rw [hj, Function.update_self, hold]
      simp only [rank, Prod.ext_iff, true_and]
      constructor
      · rintro (hk | hk)
        · rw [hk]
        · omega
      · intro hk
        by_cases hkv : k = v.2
        · exact .inl hkv
        · exact .inr (by have := lt_of_le_of_ne (a := k) (b := v.2) (by omega) hkv; omega)
    · rw [Function.update_of_ne hj]
      simp [Prod.ext_iff, hj]
  aborted j k hj := by
    rw [hst] at hj
    rw [hhist]
    refine List.mem_cons_of_mem _ (h.aborted j k ?_)
    by_cases hjv : j = v.1
    · rw [hjv, Function.update_self] at hj
      rw [hjv, hold]
      rcases hj with hj | hj
      · simp only [rank] at hj ⊢
        left
        omega
      · cases hj
    · rwa [Function.update_of_ne hjv] at hj

theorem pastInvariant_step (ho : Owns s.status s.role) (h : PastInvariant s)
    (hs : Step job d w s s') : PastInvariant s' := by
  cases hs with
  | @abort v wave hr hst =>
    refine h.advance (e := [.aborted v]) rfl rfl (by simp) (fun k => ?_) fun k hk => ?_
    · rw [hst]
      simp only [rank]
      omega
    · rcases hk with hk | hk
      · simp only [rank] at hk
        exact .inl (by rw [hst, rank]; omega)
      · cases hk
        exact .inr (.inr List.mem_cons_self)
  | @reset v hr =>
    have hst : s.status v.1 = .aborting v.2 := ho.status_eq (by rw [hr]; rfl)
    refine h.advance (e := []) rfl rfl (by simp) (fun k => ?_) fun k hk => ?_
    · rw [hst]
      simp only [rank]
      omega
    · rcases hk with hk | hk
      · simp only [rank] at hk
        by_cases hkv : k = v.2
        · exact .inr (.inl (hkv ▸ hst))
        · exact .inl (by rw [hst, rank]; omega)
      · cases hk
  | @incarnate v condvar retry hr =>
    have hst : s.status v.1 = .readyToExecute v.2 condvar := ho.status_eq (by rw [hr]; rfl)
    refine h.keep rfl rfl (by simp) (fun k => ?_) (fun k hk => ?_) (by simp)
    · rw [hst]
      simp only [rank]
      omega
    · simp only [rank] at hk
      rw [hst, rank]
      omega
  | @executed v hr => exact h.execute (ho.status_eq (by rw [hr]; rfl)) rfl rfl
  | @commit inc wave hn hst =>
    refine h.keep rfl rfl (by simp) (fun k => ?_) (fun k hk => ?_) (by simp)
    · rw [hst]
      simp only [rank]
      omega
    · simp only [rank] at hk
      rw [hst, rank]
      omega
  | claim | accept =>
    exact ⟨fun i k => by simpa [turn, record] using h.executed_iff i k,
      fun i k hk => List.mem_cons_of_mem _ (h.aborted i k hk)⟩
  | _ => exact ⟨h.executed_iff, h.aborted⟩

theorem Reachable.pastInvariant (hr : Reachable job d s) : PastInvariant s :=
  InterleavedRuns.invariant_of_step pastInvariant_new
    (fun _ _ ht h ⟨_, hs⟩ => pastInvariant_step (Reachable.statusInvariant ht).owns h hs) hr

/-! ## Keys that an update relies on -/

/-- What the map holds at the keys that a worker is going to remove or to mark. -/
def Prepared (mv : MVHashMap K) : Role K P E → Prop
  | .executing v (.applyUpdates _ _ _ prev) => ∀ key ∈ prev, ∃ e, mv.entry key v.1 = some e ∧
      ∀ inc data, e.cell = .write inc data → inc < v.2
  | .executing _ (.removeStale _ _ prev) => ∀ key ∈ prev, (mv.data key).isSome
  | .aborting v (.marking keys) => ∀ key ∈ keys, (mv.entry key v.1).isSome
  | _ => True

omit [DecidableEq K] in
theorem data_isSome_of_entry {mv : MVHashMap K} {key : K} {i : TxnIndex}
    (h : (mv.entry key i).isSome) : (mv.data key).isSome := by
  obtain ⟨e, he⟩ := Option.isSome_iff_exists.mp h
  obtain ⟨v, hv, -⟩ := Option.bind_eq_some_iff.mp he
  rw [hv]
  rfl

omit [DecidableEq K] in
/-- Updates of other transactions do not matter. -/
theorem Prepared.frame {mv mv' : MVHashMap K} {r : Role K P E} (h : Prepared mv r)
    (hdata : ∀ key, (mv.data key).isSome → (mv'.data key).isSome)
    (hentry : ∀ i st, r.owned = some (i, st) → ∀ key, mv'.entry key i = mv.entry key i) :
    Prepared mv' r := by
  unfold Prepared at h ⊢
  split at h
  · intro key hkey
    rw [hentry _ _ rfl]
    exact h key hkey
  · exact fun key hkey => hdata key (h key hkey)
  · intro key hkey
    rw [hentry _ _ rfl]
    exact h key hkey
  · trivial

theorem data_insertEntry {mv : MVHashMap K} {key k : K} {i : TxnIndex} {e : Entry}
    (h : (mv.data k).isSome) : ((mv.insertEntry key i e).data k).isSome := by
  unfold MVHashMap.insertEntry
  by_cases hk : k = key
  · simp [hk]
  · simpa [hk] using h

theorem data_delete {mv mv' : MVHashMap K} {key k : K} {i : TxnIndex}
    (hm : mv.delete key i = some mv') (h : (mv.data k).isSome) : (mv'.data k).isSome := by
  obtain ⟨v, hv, rfl⟩ := Option.map_eq_some_iff.mp hm
  by_cases hk : k = key
  · simp [hk]
  · simpa [hk] using h

theorem data_compute {v : Version} {mv mv' : MVHashMap K} {io io' : TxnLastInputOutput K P E}
    {phase phase' : ExecutePhase K P E} (hc : Compute job v mv io phase mv' io' phase') {k : K}
    (h : (mv.data k).isSome) : (mv'.data k).isSome := by
  cases hc with
  | @apply _ _ u _ _ _ hm =>
    obtain ⟨key, cell⟩ := u
    cases cell with
    | write inc data =>
      rw [(MVHashMap.addWrite_some hm).1]
      exact data_insertEntry h
    | delta op =>
      cases hm
      unfold MVHashMap.addDelta
      by_cases hk : k = key
      · simp [hk]
      · simpa [hk] using h
  | remove _ hm => exact data_delete hm h
  | _ => exact h

theorem prepared_compute {outcomes : Outcomes K P E} {v : Version} {mv mv' : MVHashMap K}
    {io io' : TxnLastInputOutput K P E} {phase phase' : ExecutePhase K P E}
    (hc : Compute job v mv io phase mv' io' phase')
    (hd : (columnOf mv io v.1).During (fun k => outcomes (v.1, k)) v.2 phase)
    (h : Prepared mv (.executing v phase : Role K P E)) :
    Prepared mv' (.executing v phase' : Role K P E) := by
  cases hc with
  | load =>
    obtain ⟨-, hs, ho⟩ := hd
    intro key hkey
    rw [mem_modifiedKeys ho] at hkey
    have hshow := hs key
    obtain ⟨cell, hcell⟩ := Option.ne_none_iff_exists'.mp (lastUpdate_eq_none.not_left.mpr hkey)
    rw [hcell] at hshow
    obtain ⟨e, he, rfl⟩ := Option.map_eq_some_iff.mp hshow
    refine ⟨e, he, fun inc data hw => ?_⟩
    have hmem := lastUpdate_mem hcell
    rw [hw] at hmem
    exact Nat.lt_of_succ_le (write_of_previousUpdates hmem).ge
  | @apply status reads u us prev _ hm =>
    obtain ⟨-, hnodup, -⟩ := hd
    intro key hkey
    obtain ⟨hne, hkey⟩ := hnodup.mem_erase_iff.mp hkey
    rw [MVHashMap.entry_apply hm, if_neg fun h => hne h.1]
    exact h key hkey
  | applied =>
    intro key hkey
    obtain ⟨e, he, -⟩ := h key hkey
    exact data_isSome_of_entry (i := v.1) (by rw [he]; rfl)
  | remove hk hm =>
    intro key hkey
    exact data_delete hm (h key (List.mem_of_mem_eraseIdx hkey))
  | _ => trivial

theorem prepared_step (hi : StatusInvariant job s) {outcomes : Outcomes K P E}
    (hm : MirrorInvariant job outcomes s) (h : ∀ u, Prepared s.mv (s.role u))
    (hs : Step job d w s s') (u : Fin m) : Prepared s'.mv (s'.role u) := by
  by_cases hu : u = w
  · subst hu
    cases hs with
    | advance | commit => exact h u
    | @loadModified v hr =>
      have hst : s.status v.1 = .aborting v.2 := hi.owns.status_eq (by rw [hr]; rfl)
      obtain ⟨status, hk⟩ := mirrored_aborting (hm.mirrored v.1) hst
      have hw := hk.awaits
      simp only [turn, Function.update_self, Prepared]
      intro key hkey
      rw [mem_modifiedKeys hw.output_eq, ← lastUpdate_eq_none.not_left, ← hw.shows key] at hkey
      exact Option.isSome_iff_ne_none.mpr fun hn => hkey (Option.map_eq_none_iff.mpr hn)
    | @mark v keys choice key mv hr hk hmark =>
      have hp := h u
      rw [hr] at hp
      obtain ⟨e, he, rfl⟩ := MVHashMap.markEstimate_some hmark
      simp only [turn, Function.update_self, Prepared]
      intro key' hkey
      rw [MVHashMap.entry_insertEntry]
      split
      · rfl
      · exact hp key' (List.mem_of_mem_eraseIdx hkey)
    | @compute v phase phase' mv io hr hc =>
      have hp := h u
      rw [hr] at hp
      obtain ⟨hd, -⟩ := mirrored_executing hi.owns (hm.mirrored v.1) hr
      simp only [turn, Function.update_self]
      exact prepared_compute hc hd hp
    | _ => simp [turn, Prepared]
  · have hrole := role_of_ne hs hu
    have hp := h u
    rw [hrole]
    -- nobody else works on a transaction that a worker owns
    have hother {i : TxnIndex} {st : ExecutionStatus} (hw : (s.role w).owned = some (i, st))
        {j : TxnIndex} {st' : ExecutionStatus} (hj : (s.role u).owned = some (j, st')) : j ≠ i := by
      rintro rfl
      exact hu (hi.owns.unique hj hw)
    cases hs with
    | @mark v keys choice key mv hr hk hmark =>
      obtain ⟨e, he, rfl⟩ := MVHashMap.markEstimate_some hmark
      refine hp.frame (fun k hk => data_insertEntry hk) fun j st hj k => ?_
      have hne : j ≠ v.1 := hother (by rw [hr]; rfl) hj
      simp only [turn]
      rw [MVHashMap.entry_insertEntry, if_neg fun h => hne h.2]
    | @compute v phase phase' mv io hr hc =>
      refine hp.frame (fun k hk => data_compute hc hk) fun j st hj k => ?_
      have hne : j ≠ v.1 := hother (by rw [hr]; rfl) hj
      exact congrFun (congrArg Column.entries (hc.column_of_ne hne)) k
    | _ => exact hp

theorem Reachable.prepared (hr : Reachable job d s) (u : Fin m) : Prepared s.mv (s.role u) := by
  refine InterleavedRuns.invariant_of_step (I := fun s => ∀ u, Prepared s.mv (s.role u)) ?_ ?_ hr u
  · exact fun _ => trivial
  · rintro t t' ht h ⟨w, hs⟩
    obtain ⟨outcomes, hm⟩ := Reachable.mirrorInvariant ht
    exact prepared_step (Reachable.statusInvariant ht) hm h hs

end Speculation

/-! ## The machine -/

/-- An execution that a worker has not entered yet has not read anything. -/
theorem Pc.role_executing {job : Job K P E} {pc : Pc K P E} {v : Version}
    {phase : ExecutePhase K P E} (h : pc.role job = .executing v phase) :
    (∃ phase', pc = .execute v phase') ∨ phase = .running (job.program v.1) [] := by
  cases pc with
  | execute v' phase' =>
    cases phase' <;> cases h <;> exact .inl ⟨_, rfl⟩
  | tryCommit task =>
    rcases task with ⟨v', _ | _⟩ | _ | _ | _ | _ | _ <;> cases h
    exact .inr rfl
  | releaseChildren _ _ _ next =>
    rcases next with _ | ⟨v', _ | _⟩ <;> cases h
    exact .inr rfl
  | incarnate i caller => cases caller <;> cases h
  | exited done => cases done <;> cases h
  | _ => cases h

namespace State
variable [DecidableEq K] {job : Job K P E} {s : State K P E m}

/-- The entries of a transaction are the updates of its last recorded output. The incarnation
of that output is the last one that the history knows as executed. -/
structure Mirrors (s : State K P E m) (i : TxnIndex) : Prop where
  keys : ∀ key, (s.mv.entry key i).isSome ↔ key ∈ s.io.modifiedKeys i
  before : (∀ k, .executed (i, k) ∉ s.history) → s.io.outputs i = none
  incarnation : ∀ key flag inc data, s.mv.entry key i = some ⟨flag, .write inc data⟩ →
    .executed (i, inc) ∈ s.history ∧ ∀ k, .executed (i, k) ∈ s.history → k ≤ inc
  estimate : ∀ key cell, s.mv.entry key i = some ⟨.estimate, cell⟩ →
    ∃ k, .aborted (i, k) ∈ s.history ∧ .executed (i, k + 1) ∉ s.history

/-- No worker is about to panic in an update of the multi-version map. -/
structure UpdatesSafely (s : State K P E m) : Prop where
  markEstimate : ∀ w v keys, (s.workers w).pc = .abort v (.marking keys) →
    ∀ key ∈ keys, (s.mv.markEstimate key v.1).isSome
  delete : ∀ w v status reads prev, (s.workers w).pc = .execute v (.removeStale status reads prev) →
    ∀ key ∈ prev, (s.mv.delete key v.1).isSome
  apply : ∀ w v status reads u us prev,
    (s.workers w).pc = .execute v (.applyUpdates status reads (u :: us) prev) →
    (s.mv.apply v.1 u).isSome

/-- Outside of an execution the column shows the updates of the last executed incarnation. -/
theorem awaits_of_not_executing (hs : State.Reachable job s) {i : TxnIndex}
    (hi : ∀ w, (s.workers w).pc.executing ≠ some i) :
    ∃ (outcome : Incarnation → Option (TxnStatus K P E)) (inc : ℕ),
      (columnOf s.mv s.io i).Awaits outcome inc ∧
      (∀ k : ℕ, .executed (i, k) ∈ s.history ↔ k < inc) ∧
      ∀ (k : ℕ) key cell, s.mv.entry key i = some ⟨.estimate, cell⟩ → inc = k + 1 →
        .aborted (i, k) ∈ s.history := by
  have hspec := State.Reachable.speculation hs
  have hinv := hspec.statusInvariant
  have hpast := hspec.pastInvariant
  obtain ⟨outcomes, hmirror⟩ := hspec.mirrorInvariant
  have hmir := hmirror.mirrored i
  have hexec : ∀ k, .executed (i, k) ∈ s.history ↔ 4 * k + 2 ≤ (s.sched.txnStatus i).rank :=
    hpast.executed_iff i
  have habort : ∀ k, 4 * k + 3 < (s.sched.txnStatus i).rank ∨ s.sched.txnStatus i = .aborting k →
      .aborted (i, k) ∈ s.history := hpast.aborted i
  have hmap : (s.speculation job).mv = s.mv := rfl
  unfold Speculation.Mirrored at hmir
  have hsame : (s.speculation job).status i = s.sched.txnStatus i := rfl
  rw [hsame] at hmir
  cases hst : s.sched.txnStatus i with
  | readyToExecute inc condvar =>
    rw [hst] at hmir hexec habort
    refine ⟨_, inc, hmir, fun k => ?_, fun k key cell _ hk => habort k (.inl ?_)⟩
    · rw [hexec, ExecutionStatus.rank]
      omega
    · rw [ExecutionStatus.rank, hk]
      omega
  | executing inc =>
    rw [hst] at hmir hexec habort
    obtain ⟨w, phase, hrole, hduring, -⟩ := hmir
    rcases Pc.role_executing hrole with ⟨phase', hpc⟩ | rfl
    · exact absurd (by rw [hpc]; rfl) (hi w)
    · refine ⟨_, inc, hduring, fun k => ?_, fun k key cell _ hk => habort k (.inl ?_)⟩
      · rw [hexec, ExecutionStatus.rank]
        omega
      · rw [ExecutionStatus.rank, hk]
        omega
  | suspended inc condvar => exact absurd hst (hinv.commit.not_suspended i inc condvar)
  | executed inc | committed inc =>
    rw [hst] at hmir hexec
    obtain ⟨status, reads, hset, -, -⟩ := hmir
    refine ⟨_, inc + 1, hset.keeps.awaits, fun k => ?_, fun k key cell he _ => ?_⟩
    · rw [hexec, ExecutionStatus.rank]
      omega
    · have hdone := hset.entries_eq key
      simp only [columnOf, hmap, he] at hdone
      obtain ⟨_, _, hflag⟩ := Option.map_eq_some_iff.mp hdone.symm
      cases hflag
  | aborting inc =>
    rw [hst] at hmir hexec habort
    obtain ⟨status, hk⟩ := hmir
    refine ⟨_, inc + 1, hk.awaits, fun k => ?_, fun k key cell _ hk => habort k (.inr ?_)⟩
    · rw [hexec, ExecutionStatus.rank]
      omega
    · rw [Nat.succ.inj hk]

theorem mirrors_of_not_executing (hs : State.Reachable job s) {i : TxnIndex}
    (hi : ∀ w, (s.workers w).pc.executing ≠ some i) : s.Mirrors i := by
  obtain ⟨outcome, inc, haw, hexec, hest⟩ := awaits_of_not_executing hs hi
  have hshows : ∀ key, (s.mv.entry key i).map Entry.cell =
      lastUpdate (previousUpdates outcome inc) key := haw.shows
  have hout : s.io.outputs i = previousOutput outcome inc := haw.output_eq
  refine ⟨fun key => ?_, fun hnone => ?_, fun key flag k data he => ?_, fun key cell he => ?_⟩
  · rw [mem_modifiedKeys hout, ← lastUpdate_eq_none.not_left, ← hshows, ← ne_eq,
      ← Option.isSome_iff_ne_none, Option.isSome_map]
  · obtain rfl : inc = 0 := by
      by_contra hne
      exact hnone 0 ((hexec 0).mpr (by omega))
    rw [hout, previousOutput]
  · have hcell := hshows key
    rw [he] at hcell
    have hk := write_of_previousUpdates (lastUpdate_mem hcell.symm)
    exact ⟨(hexec k).mpr (by omega), fun k' hk' =>
      Nat.le_of_lt_succ (lt_of_lt_of_eq ((hexec k').mp hk') hk)⟩
  · have hcell := hshows key
    rw [he] at hcell
    cases inc with
    | zero => cases hcell
    | succ k =>
      refine ⟨k, hest k key cell he rfl, fun hk => ?_⟩
      have := (hexec (k + 1)).mp hk
      omega

theorem updatesSafely (hs : State.Reachable job s) : s.UpdatesSafely := by
  have hspec := State.Reachable.speculation hs
  have hprep := fun w => hspec.prepared w
  obtain ⟨outcomes, hmirror⟩ := hspec.mirrorInvariant
  refine ⟨fun w v keys hpc key hkey => ?_, fun w v status reads prev hpc key hkey => ?_,
    fun w v status reads u us prev hpc => ?_⟩
  · have hp := hprep w
    simp only [State.speculation, hpc] at hp
    rw [MVHashMap.markEstimate, Option.isSome_map]
    exact hp key hkey
  · have hp := hprep w
    simp only [State.speculation, hpc] at hp
    rw [MVHashMap.delete, Option.isSome_map]
    exact hp key hkey
  · have hrole : (s.speculation job).role w =
        .executing v (.applyUpdates status reads (u :: us) prev) := by
      simp only [State.speculation, hpc]
      rfl
    have hp := hprep w
    rw [hrole] at hp
    obtain ⟨⟨-, -, done, hupd, hover⟩, -⟩ :=
      Speculation.mirrored_executing hspec.statusInvariant.owns (hmirror.mirrored v.1) hrole
    obtain ⟨key, cell⟩ := u
    cases cell with
    | delta op => rfl
    | write inc data =>
      have hmem : (key, EntryCell.write inc data) ∈ Job.updates v.2 status := by
        rw [hupd]
        simp
      obtain rfl := Job.incarnation_of_updates hmem
      refine MVHashMap.addWrite_isSome fun flag k data' he => ?_
      by_cases hkey : key ∈ prev
      · obtain ⟨e, he', hlow⟩ := hp key hkey
        cases he.symm.trans he'
        exact hlow k data' rfl
      · have hnone := hover.entries_eq key hkey
        rw [lastUpdate_eq_none.mpr (Job.first_write_of_updates hupd)] at hnone
        cases he.symm.trans hnone

/-- The multi-version map mirrors the recorded outputs of all transactions that are not being
executed, and none of its updates panics. -/
theorem mirrors_outputs (hs : State.Reachable job s) :
    (∀ i, (∀ w, (s.workers w).pc.executing ≠ some i) → s.Mirrors i) ∧ s.UpdatesSafely :=
  ⟨fun _ hi => mirrors_of_not_executing hs hi, updatesSafely hs⟩

end State

open StatusMachine in
/-- Transaction 2 was aborted and nobody executes it; its key holds an estimate of the aborted
incarnation. -/
theorem mirrors_outputs_relayBlock : ∃ s : State ℕ Unit Unit 3, State.Reachable relayBlock s ∧
    s.mv.entry 2 2 = some ⟨.estimate, .write 0 (.modification [1])⟩ ∧ s.Mirrors 2 ∧
    s.UpdatesSafely := by
  obtain ⟨s, hreach, he, hnone⟩ : ∃ s : State ℕ Unit Unit 3, State.Reachable relayBlock s ∧
      s.mv.entry 2 2 = some ⟨.estimate, .write 0 (.modification [1])⟩ ∧
        ∀ w, (s.workers w).pc.executing ≠ some 2 :=
    State.Reachable.of_schedule (turns [(0, 7), (1, 8), (2, 8), (0, 33), (2, 25), (0, 6), (2, 12),
      (0, 16)]) (by decide +kernel)
  have hall := State.mirrors_outputs hreach
  exact ⟨s, hreach, he, hall.1 2 hnone, hall.2⟩

end Anthemius

import Anthemius.StatusInvariants
import Anthemius.RecordedReads

/-! The columns fit the statuses in every reachable state: a settled transaction shows the
updates of its version, all finished, and its recorded reads explain its outcome. -/
namespace Anthemius
open UpdateLists

variable {K P E : Type} [DecidableEq K]

namespace Compute
variable {job : Job K P E} {v : Version} {mv mv' : MVHashMap K} {io io' : TxnLastInputOutput K P E}
  {phase phase' : ExecutePhase K P E} {outcomes : Outcomes K P E}

theorem column_of_ne (h : Compute job v mv io phase mv' io' phase') {i : TxnIndex}
    (hi : i ≠ v.1) : columnOf mv' io' i = columnOf mv io i := by
  cases h with
  | apply h => simp [columnOf, MVHashMap.entry_apply h, hi]
  | remove hk h => simp [columnOf, MVHashMap.entry_delete h, hi]
  | recordInput | recordOutput => simp [columnOf, hi]
  | _ => rfl

/-- The column and the reads still fit after a step that does not end the program. -/
theorem during (h : Compute job v mv io phase mv' io' phase')
    (hfin : ∀ status reads, phase ≠ .running (.finished status) reads)
    (hd : (columnOf mv io v.1).During (fun k => outcomes (v.1, k)) v.2 phase) :
    (columnOf mv' io' v.1).During (fun k => outcomes (v.1, k)) v.2 phase' := by
  cases h with
  | read => exact hd
  | finish => exact absurd rfl (hfin _ _)
  | load =>
    obtain ⟨hl, hs, ho⟩ := hd
    refine ⟨hl, nodup_modifiedKeys io v.1, [], rfl, fun key hk => ?_, nofun⟩
    rw [mem_modifiedKeys ho, ← lastUpdate_eq_none, ← hs key] at hk
    exact Option.map_eq_none_iff.mp hk
  | @apply status reads u us prev _ hm =>
    obtain ⟨hl, hnodup, done, hupd, hover⟩ := hd
    refine ⟨hl, hnodup.erase _, done ++ [u], by simp [hupd], fun key hk => ?_, fun key hk => ?_⟩
    · rw [hnodup.mem_erase_iff] at hk
      simp only [columnOf, MVHashMap.entry_apply hm, lastUpdate_concat, and_true]
      by_cases hku : key = u.1
      · simp [hku]
      · rw [if_neg hku, if_neg (Ne.symm hku)]
        exact hover.entries_eq key fun hp => hk ⟨hku, hp⟩
    · obtain ⟨hne, hp⟩ := hnodup.mem_erase_iff.mp hk
      simpa [hne] using hover.untouched key hp
  | applied =>
    obtain ⟨hl, -, done, hupd, hover⟩ := hd
    rw [List.append_nil] at hupd
    exact ⟨hl, hupd ▸ hover⟩
  | @remove status reads prev choice key _ hk hm =>
    obtain ⟨hl, hover⟩ := hd
    refine ⟨hl, fun k hk' => ?_, fun k hk' => hover.untouched k (List.mem_of_mem_eraseIdx hk')⟩
    simp only [columnOf, MVHashMap.entry_delete hm, and_true]
    by_cases hkk : k = key
    · have hmem : key ∈ prev := List.mem_of_getElem? hk
      simp [hkk, lastUpdate_eq_none.mpr (hover.untouched key hmem)]
    · rw [if_neg hkk]
      refine hover.entries_eq k fun hp => hk' ?_
      obtain ⟨pos, hpos⟩ := List.mem_iff_getElem?.mp hp
      refine List.mem_eraseIdx_iff_getElem?.mpr ⟨pos, fun he => hkk ?_, hpos⟩
      exact Option.some_inj.mp (hpos.symm.trans (he ▸ hk))
  | removed => exact hd
  | recordInput => exact ⟨hd.1, hd.2.1, hd.2.2⟩
  | recordOutput => exact ⟨_, hd.1, ⟨hd.2.1, hd.2.2⟩, by simp [columnOf]⟩

theorem traced (h : Compute job v mv io phase mv' io' phase') (hw : Written outcomes mv)
    (hfin : ∀ status reads, phase ≠ .running (.finished status) reads)
    (hd : (columnOf mv io v.1).During (fun k => outcomes (v.1, k)) v.2 phase)
    (ht : Traced job outcomes v (columnOf mv io v.1) phase) :
    Traced job outcomes v (columnOf mv' io' v.1) phase' := by
  cases h with
  | read hr => exact .read ht (seen_of_getStateValue hw hr)
  | finish => exact absurd rfl (hfin _ _)
  | recordInput => exact ⟨_, by simp [columnOf], ht⟩
  | recordOutput =>
    obtain ⟨reads, hin, hx⟩ := ht
    exact ⟨reads, _, hin, hd.1.outcome_eq, hx⟩
  | _ => exact ht

theorem written (h : Compute job v mv io phase mv' io' phase') (hw : Written outcomes mv)
    (hd : (columnOf mv io v.1).During (fun k => outcomes (v.1, k)) v.2 phase) :
    Written outcomes mv' := by
  cases h with
  | @apply status reads u us prev _ hm =>
    intro key i flag inc data he
    rw [MVHashMap.entry_apply hm] at he
    split at he
    · rename_i hki
      obtain ⟨rfl, rfl⟩ := hki
      obtain ⟨hl, -, done, hupd, hover⟩ := hd
      obtain ⟨key, cell⟩ := u
      cases he
      have hmem : (key, EntryCell.write inc data) ∈ Job.updates v.2 status := by
        rw [hupd]
        simp
      obtain rfl := Job.incarnation_of_updates hmem
      exact ⟨status, hl.outcome_eq, find?_updates hupd⟩
    · exact hw he
  | remove hk hm =>
    intro key i flag inc data he
    rw [MVHashMap.entry_delete hm] at he
    split at he
    · cases he
    · exact hw he
  | _ => exact hw

end Compute

namespace Speculation
open ExecutionStatus
variable {m : ℕ}

/-- The column of a transaction fits its status. -/
def Mirrored (job : Job K P E) (outcomes : Outcomes K P E) (s : Speculation K P E m)
    (i : TxnIndex) : Prop :=
  match s.status i with
  | .readyToExecute inc _ => (columnOf s.mv s.io i).Awaits (fun k => outcomes (i, k)) inc
  | .executing inc => ∃ w phase, s.role w = .executing (i, inc) phase ∧
      (columnOf s.mv s.io i).During (fun k => outcomes (i, k)) inc phase ∧
      Traced job outcomes (i, inc) (columnOf s.mv s.io i) phase
  | .suspended _ _ => True
  | .executed inc | .committed inc => ∃ status reads,
      (columnOf s.mv s.io i).Settles (fun k => outcomes (i, k)) inc status ∧
      (columnOf s.mv s.io i).input = some reads ∧ Explains job outcomes i reads (.finished status)
  | .aborting inc => ∃ status,
      (columnOf s.mv s.io i).Keeps (fun k => outcomes (i, k)) inc status

structure MirrorInvariant (job : Job K P E) (outcomes : Outcomes K P E)
    (s : Speculation K P E m) : Prop where
  mirrored : ∀ i, Mirrored job outcomes s i
  written : Written outcomes s.mv

variable {job : Job K P E} {d : Discipline} {w : Fin m} {s s' : Speculation K P E m}
  {outcomes outcomes' : Outcomes K P E} {i : TxnIndex}

/-- A transaction that a step leaves alone stays mirrored. -/
theorem Mirrored.frame (h : Mirrored job outcomes s i) (he : Extends outcomes outcomes')
    (ho : ∀ k, outcomes' (i, k) = outcomes (i, k)) (hst : s'.status i = s.status i)
    (hcol : columnOf s'.mv s'.io i = columnOf s.mv s.io i)
    (hrole : ∀ u inc phase, s.role u = .executing (i, inc) phase →
      s'.role u = .executing (i, inc) phase) : Mirrored job outcomes' s' i := by
  unfold Mirrored at h ⊢
  simp only [hst, hcol, ho]
  split at h
  · exact h
  · obtain ⟨u, phase, hu, hd, ht⟩ := h
    exact ⟨u, phase, hrole u _ phase hu, hd, ht.extend he⟩
  · trivial
  · obtain ⟨status, reads, hset, hin, hx⟩ := h
    exact ⟨status, reads, hset, hin, hx.extend he⟩
  · obtain ⟨status, reads, hset, hin, hx⟩ := h
    exact ⟨status, reads, hset, hin, hx.extend he⟩
  · exact h

theorem mirrored_ready {inc : Incarnation} {condvar : Option DependencyCondvar}
    (h : Mirrored job outcomes s i) (hst : s.status i = .readyToExecute inc condvar) :
    (columnOf s.mv s.io i).Awaits (fun k => outcomes (i, k)) inc := by
  simpa only [Mirrored, hst] using h

theorem mirrored_executing (ho : Owns s.status s.role) {v : Version} {phase : ExecutePhase K P E}
    (h : Mirrored job outcomes s v.1) (hr : s.role w = .executing v phase) :
    (columnOf s.mv s.io v.1).During (fun k => outcomes (v.1, k)) v.2 phase ∧
      Traced job outcomes v (columnOf s.mv s.io v.1) phase := by
  have hst : s.status v.1 = .executing v.2 := ho.status_eq (by rw [hr]; rfl)
  simp only [Mirrored, hst] at h
  obtain ⟨u, phase', hu, hd, ht⟩ := h
  obtain rfl : u = w := ho.unique (by rw [hu]; rfl) (by rw [hr]; rfl)
  cases hu.symm.trans hr
  exact ⟨hd, ht⟩

theorem mirrored_executed {inc : Incarnation} (h : Mirrored job outcomes s i)
    (hst : s.status i = .executed inc) : ∃ status reads,
      (columnOf s.mv s.io i).Settles (fun k => outcomes (i, k)) inc status ∧
      (columnOf s.mv s.io i).input = some reads ∧
      Explains job outcomes i reads (.finished status) := by
  simpa only [Mirrored, hst] using h

theorem mirrored_aborting {inc : Incarnation} (h : Mirrored job outcomes s i)
    (hst : s.status i = .aborting inc) : ∃ status,
      (columnOf s.mv s.io i).Keeps (fun k => outcomes (i, k)) inc status := by
  simpa only [Mirrored, hst] using h

/-- Only the column of the stepping worker's own transaction has to be looked at. -/
theorem MirrorInvariant.step (h : MirrorInvariant job outcomes s) (j : TxnIndex)
    (he : Extends outcomes outcomes') (ho : ∀ i, i ≠ j → ∀ k, outcomes' (i, k) = outcomes (i, k))
    (hst : ∀ i, i ≠ j → s'.status i = s.status i)
    (hcol : ∀ i, i ≠ j → columnOf s'.mv s'.io i = columnOf s.mv s.io i)
    (hrole : ∀ u v phase, v.1 ≠ j → s.role u = .executing v phase → s'.role u = .executing v phase)
    (hj : Mirrored job outcomes' s' j) (hw : Written outcomes' s'.mv) :
    MirrorInvariant job outcomes' s' where
  mirrored i := by
    by_cases hij : i = j
    · exact hij ▸ hj
    · exact (h.mirrored i).frame he (ho i hij) (hst i hij) (hcol i hij)
        fun u inc phase hu => hrole u (i, inc) phase hij hu
  written := hw

omit [DecidableEq K] in
theorem executing_turn {r : Role K P E} (hr : ∀ v phase, s.role w ≠ .executing v phase) {u : Fin m}
    {v : Version} {phase : ExecutePhase K P E} (hu : s.role u = .executing v phase) :
    Function.update s.role w r u = .executing v phase := by
  rwa [Function.update_of_ne]
  rintro rfl
  exact hr v phase hu

omit [DecidableEq K] in
/-- A worker that executes one transaction executes no other. -/
theorem executing_turn_of_ne {r : Role K P E} {v : Version} {phase : ExecutePhase K P E}
    (hr : s.role w = .executing v phase) {u : Fin m} {v' : Version} {phase' : ExecutePhase K P E}
    (hv : v'.1 ≠ v.1) (hu : s.role u = .executing v' phase') :
    Function.update s.role w r u = .executing v' phase' := by
  rwa [Function.update_of_ne]
  rintro rfl
  cases hr.symm.trans hu
  exact hv rfl

theorem mirror_finish (hi : StatusInvariant job s) (h : MirrorInvariant job outcomes s)
    {v : Version} {status : TxnStatus K P E} {reads : List (ReadDescriptor K)}
    (hr : s.role w = .executing v (.running (.finished status) reads)) :
    MirrorInvariant job (Function.update outcomes v (some status))
      (s.turn w (.executing v (.loadPrevious status reads))) := by
  obtain ⟨hd, ht⟩ := mirrored_executing hi.owns (h.mirrored v.1) hr
  have hnone : outcomes v = none := hd.later v.2 le_rfl
  have he : Extends outcomes (Function.update outcomes v (some status)) := by
    intro u st hu
    rwa [Function.update_of_ne]
    rintro rfl
    rw [hnone] at hu
    cases hu
  have hold : ∀ k, k ≠ v.2 →
      Function.update outcomes v (some status) (v.1, k) = outcomes (v.1, k) :=
    fun k hk => Function.update_of_ne (fun h => hk (congrArg Prod.snd h)) ..
  obtain ⟨hu, hp⟩ := previous_congr v.2 fun k hk => hold k hk.ne
  refine h.step v.1 he (fun i hi k => Function.update_of_ne (fun h => hi (congrArg Prod.fst h)) ..)
    (fun _ _ => rfl) (fun _ _ => rfl) (fun u v' phase hv => executing_turn_of_ne hr hv) ?_
    (fun hentry => (h.written hentry).extend he)
  have hst : s.status v.1 = .executing v.2 := hi.owns.status_eq (by rw [hr]; rfl)
  simp only [Mirrored, turn, hst]
  refine ⟨w, .loadPrevious status reads, Function.update_self .., ⟨⟨?_, ?_⟩, ?_, ?_⟩, ?_⟩
  · exact Function.update_self ..
  · exact fun k hk => (hold k (ne_of_gt hk)).trans (hd.later k (le_of_lt hk))
  · rw [hu]
    exact hd.shows
  · rw [hp]
    exact hd.output_eq
  · exact Explains.extend he ht

theorem mirror_compute (hi : StatusInvariant job s) (h : MirrorInvariant job outcomes s)
    {v : Version} {phase phase' : ExecutePhase K P E} {mv : MVHashMap K}
    {io : TxnLastInputOutput K P E} (hr : s.role w = .executing v phase)
    (hc : Compute job v s.mv s.io phase mv io phase') : ∃ outcomes',
      MirrorInvariant job outcomes' ({ s with mv := mv, io := io }.turn w
        (.executing v phase')) := by
  by_cases hfin : ∃ status reads, phase = .running (.finished status) reads
  · obtain ⟨status, reads, rfl⟩ := hfin
    cases hc
    exact ⟨_, mirror_finish hi h hr⟩
  · have hfin' : ∀ status reads, phase ≠ .running (.finished status) reads :=
      fun status reads hp => hfin ⟨status, reads, hp⟩
    obtain ⟨hd, ht⟩ := mirrored_executing hi.owns (h.mirrored v.1) hr
    have hst : s.status v.1 = .executing v.2 := hi.owns.status_eq (by rw [hr]; rfl)
    refine ⟨outcomes, h.step v.1 (fun _ _ h => h) (fun _ _ _ => rfl) (fun _ _ => rfl)
      (fun i hi => hc.column_of_ne hi) (fun u v' phase hv => executing_turn_of_ne hr hv) ?_
      (hc.written h.written hd)⟩
    simp only [Mirrored, turn, hst]
    exact ⟨w, phase', Function.update_self .., hc.during hfin' hd, hc.traced h.written hfin' hd ht⟩

theorem mirror_mark (hi : StatusInvariant job s) (h : MirrorInvariant job outcomes s)
    {v : Version} {phase : AbortPhase K} {r : Role K P E} {key : K} {mv : MVHashMap K}
    (hr : s.role w = .aborting v phase) (hm : s.mv.markEstimate key v.1 = some mv) :
    MirrorInvariant job outcomes ({ s with mv := mv }.turn w r) := by
  obtain ⟨e, he, rfl⟩ := MVHashMap.markEstimate_some hm
  have hst : s.status v.1 = .aborting v.2 := hi.owns.status_eq (by rw [hr]; rfl)
  have hnr : ∀ v' phase, s.role w ≠ .executing v' phase := by rw [hr]; nofun
  obtain ⟨status, hk⟩ := mirrored_aborting (h.mirrored v.1) hst
  refine h.step v.1 (fun _ _ h => h) (fun _ _ _ => rfl) (fun _ _ => rfl) (fun i hi => ?_)
    (fun u v' phase _ => executing_turn hnr) ?_ ?_
  · simp [columnOf, turn, MVHashMap.entry_insertEntry, hi]
  · simp only [Mirrored, turn, hst]
    refine ⟨status, hk.latest, fun k => ?_, hk.output_eq⟩
    have hs := hk.shows k
    simp only [columnOf, MVHashMap.entry_insertEntry, and_true] at hs ⊢
    split
    · rename_i hkey
      rw [hkey, he] at hs
      rw [← hkey] at hs
      exact hs
    · exact hs
  · intro k i flag inc data hentry
    simp only [turn, MVHashMap.entry_insertEntry] at hentry
    split at hentry
    · rename_i hki
      obtain ⟨rfl, rfl⟩ := hki
      obtain ⟨flag', cell⟩ := e
      cases hentry
      exact h.written he
    · exact h.written hentry

/-- A status write keeps the columns, and only its own transaction has to be looked at. -/
theorem mirror_setStatus (h : MirrorInvariant job outcomes s) {j : TxnIndex}
    (hstatus : ∀ i, i ≠ j → s'.status i = s.status i) (hmv : s'.mv = s.mv) (hio : s'.io = s.io)
    (hrole : ∀ u v phase, v.1 ≠ j → s.role u = .executing v phase → s'.role u = .executing v phase)
    (hj : Mirrored job outcomes s' j) : MirrorInvariant job outcomes s' :=
  h.step j (fun _ _ h => h) (fun _ _ _ => rfl) hstatus (fun i _ => by rw [hmv, hio]) hrole hj
    (hmv ▸ h.written)

/-- The same for a worker that turns from one duty to another and is not executing. -/
theorem mirror_setStatus_turn (h : MirrorInvariant job outcomes s) {t : Speculation K P E m}
    {j : TxnIndex} {st : ExecutionStatus} {r : Role K P E}
    (hstatus : t.status = Function.update s.status j st) (hmv : t.mv = s.mv) (hio : t.io = s.io)
    (hro : t.role = s.role) (hr : ∀ v phase, s.role w ≠ .executing v phase)
    (hj : Mirrored job outcomes (t.turn w r) j) : MirrorInvariant job outcomes (t.turn w r) := by
  refine mirror_setStatus h (j := j) (fun i hi => ?_) hmv hio (fun u v phase _ hu => ?_) hj
  · simp only [turn, hstatus, Function.update_of_ne hi]
  · simp only [turn, hro]
    exact executing_turn hr hu

theorem mirror_step (hi : StatusInvariant job s) (h : MirrorInvariant job outcomes s)
    (hs : Step job d w s s') : ∃ outcomes', MirrorInvariant job outcomes' s' := by
  -- steps that change neither a status nor a column, by a worker that is not executing
  have hquiet {t : Speculation K P E m} {r : Role K P E} (hst : t.status = s.status)
      (hmv : t.mv = s.mv) (hio : t.io = s.io) (hro : t.role = s.role)
      (hr : ∀ v phase, s.role w ≠ .executing v phase) :
      ∃ outcomes', MirrorInvariant job outcomes' (t.turn w r) := by
    refine ⟨outcomes, fun i => (h.mirrored i).frame (fun _ _ h => h) (fun _ => rfl) ?_ ?_ ?_, ?_⟩
    · simp [turn, hst]
    · simp [turn, hmv, hio]
    · intro u inc phase hu
      simp only [turn, hro]
      exact executing_turn hr hu
    · simp only [turn, hmv]
      exact h.written
  cases hs with
  | unlock hr =>
    refine hquiet rfl rfl rfl rfl fun v phase h => ?_
    rcases hr with hr | ⟨i, hr⟩ <;> cases hr.symm.trans h
  | lock hr | load hr | peek hr | claim hr | loadReads hr | check hr | reject hr | accept hr
  | keep hr | finish hr | loadModified hr | marked hr | hold hr | lower hr | pass hr | store hr
  | attempt hr | retry hr | miss hr | giveUp hr =>
    exact hquiet rfl rfl rfl rfl fun v phase h => by cases hr.symm.trans h
  | advance => exact ⟨outcomes, h.mirrored, h.written⟩
  | mark hr hk hm => exact ⟨outcomes, mirror_mark hi h hr hm⟩
  | compute hr hc => exact mirror_compute hi h hr hc
  | @abort v wave hr hst =>
    obtain ⟨status, reads, hset, -, -⟩ := mirrored_executed (h.mirrored v.1) hst
    refine ⟨outcomes, mirror_setStatus_turn h rfl rfl rfl rfl
      (fun v phase h => by cases hr.symm.trans h) ?_⟩
    simp only [Mirrored, turn, record, setStatus, Function.update_self]
    exact ⟨status, hset.keeps⟩
  | @reset v hr =>
    have hst : s.status v.1 = .aborting v.2 := hi.owns.status_eq (by rw [hr]; rfl)
    obtain ⟨status, hk⟩ := mirrored_aborting (h.mirrored v.1) hst
    refine ⟨outcomes, mirror_setStatus_turn h rfl rfl rfl rfl
      (fun v phase h => by cases hr.symm.trans h) ?_⟩
    simp only [Mirrored, turn, setStatus, Function.update_self]
    exact hk.awaits
  | @incarnate v condvar retry hr =>
    have hst : s.status v.1 = .readyToExecute v.2 condvar := hi.owns.status_eq (by rw [hr]; rfl)
    refine ⟨outcomes, mirror_setStatus_turn h rfl rfl rfl rfl
      (fun v phase h => by cases hr.symm.trans h) ?_⟩
    simp only [Mirrored, turn, record, setStatus, Function.update_self]
    exact ⟨w, _, Function.update_self .., mirrored_ready (h.mirrored v.1) hst, .start⟩
  | @executed v hr =>
    obtain ⟨⟨status, hl, hover, hout⟩, reads, status', hin, ho, hx⟩ :=
      mirrored_executing hi.owns (h.mirrored v.1) hr
    obtain rfl := Option.some_inj.mp (hl.outcome_eq.symm.trans ho)
    refine ⟨outcomes, mirror_setStatus h (j := v.1)
      (fun i hi => Function.update_of_ne hi ..) rfl rfl
      (fun u v' phase hv => executing_turn_of_ne hr hv) ?_⟩
    simp only [Mirrored, turn, record, setStatus, Function.update_self]
    exact ⟨status, reads, ⟨hl, fun key => hover.entries_eq key (fun h => by cases h), hout⟩, hin,
      hx⟩
  | commit hn hst =>
    refine ⟨outcomes, mirror_setStatus h (fun i hi => Function.update_of_ne hi ..) rfl rfl
      (fun u v' phase _ hu => hu) ?_⟩
    simp only [Mirrored, record, setStatus, Function.update_self]
    exact mirrored_executed (h.mirrored _) hst

theorem mirrorInvariant_new : MirrorInvariant job (fun _ => none) (new : Speculation K P E m) where
  mirrored _ := ⟨fun _ => rfl, rfl, fun _ _ => rfl⟩
  written := nofun

theorem Reachable.mirrorInvariant (hr : Reachable job d s) :
    ∃ outcomes, MirrorInvariant job outcomes s :=
  InterleavedRuns.invariant_of_step (I := fun s => ∃ outcomes, MirrorInvariant job outcomes s)
    ⟨_, mirrorInvariant_new⟩
    (fun _ _ ht ⟨_, h⟩ ⟨_, hs⟩ => mirror_step (Reachable.statusInvariant ht) h hs) hr

end Speculation
end Anthemius

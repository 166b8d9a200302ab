import Anthemius.StatusInvariants

/-!
# Waves

A validation claimed in some wave counts for a commit only as long as nothing it relied on
was aborted. Aborting a transaction below the index lowers the index, starts a new wave and
raises the triggered wave of that transaction, which the commit wave then picks up; a claim
is stale as soon as such an abort is under way. Staleness is never lost, and a claim made
while its index and status are still the ones that were looked up is stale or fresh: every
transaction up to it is settled in the incarnation it had at the claim.
-/
namespace Anthemius.Speculation
open ExecutionStatus

variable {K P E : Type} {m : ℕ}

/-- An abort of the transaction has not lowered the index yet. -/
def Pending (s : Speculation K P E m) (k : TxnIndex) : Prop :=
  (∃ inc, s.status k = .aborting inc) ∨ ∃ u, s.role u = .lowering k

/-- The commit of `k` will require a wave above `wave`, or already does. -/
def Raises (s : Speculation K P E m) (i : TxnIndex) (wave : Wave) (k : TxnIndex) : Prop :=
  wave < s.triggered k ∨ (∃ u wave', s.role u = .storing k wave' ∧ wave < wave') ∨
    (s.Pending k ∧ i < s.index)

/-- A validation of `i` in this wave will not let `i` commit. -/
def Stale (s : Speculation K P E m) (i : TxnIndex) (wave : Wave) : Prop :=
  wave < s.commitState.2 ∨ ∃ k ≤ i, s.commitState.1 ≤ k ∧ s.Raises i wave k

structure WaveInvariant (s : Speculation K P E m) : Prop where
  triggered_le : ∀ i, s.triggered i ≤ s.wave
  storing_le : ∀ {u i wave}, s.role u = .storing i wave → s.triggered i < wave ∧ wave ≤ s.wave
  claim_le : ∀ {u v wave}, (s.role u).claim = some (v, wave) → wave ≤ s.wave
  validated_le : ∀ {i wave}, s.validated i = some wave → wave ≤ s.wave
  commit_le : s.commitState.2 ≤ s.wave
  sealed_unique : ∀ {u u' i}, (s.role u).sealed = some i → (s.role u').sealed = some i → u = u'
  sealed_commit : ∀ {u i}, (s.role u).sealed = some i → s.commitState.1 ≤ i
  executed_mem : ∀ i, (s.status i).Settled → .executed (i, (s.status i).incarnation) ∈ s.history

variable [DecidableEq K] {job : Job K P E} {d : Discipline} {w : Fin m} {s s' : Speculation K P E m}

omit [DecidableEq K] in
theorem waveInvariant_new : WaveInvariant (new : Speculation K P E m) :=
  ⟨fun _ => le_rfl, nofun, nofun, nofun, le_rfl, nofun, nofun, nofun⟩

theorem history_suffix (hs : Step job d w s s') : s.history <:+ s'.history := by
  cases hs with
  | claim | accept | abort | incarnate | executed | commit => exact List.suffix_cons _ _
  | _ => exact List.suffix_refl _

theorem commitWave_step (hs : Step job d w s s') :
    s'.commitState.2 = s.commitState.2 ∨
      s'.commitState.2 = max s.commitState.2 (s.triggered s.commitState.1) := by
  cases hs with
  | advance | commit => exact .inr rfl
  | _ => exact .inl rfl

theorem triggered_step (hs : Step job d w s s') (i : TxnIndex) :
    s'.triggered i = s.triggered i ∨
      ∃ wave, s.role w = .storing i wave ∧ s'.role w = .retrying i ∧ s'.triggered i = wave := by
  cases hs with
  | @store j wave hr =>
    simp only [turn, Function.update_apply]
    split
    · rename_i h
      subst h
      exact .inr ⟨wave, hr, if_pos trivial, rfl⟩
    · exact .inl rfl
  | _ => exact .inl rfl

/-- A worker starts to store a wave only right after it lowered the index. -/
theorem storing_step (hb : d.boundedWaves) (hs : Step job d w s s') {u : Fin m} {i : TxnIndex}
    {wave : Wave} (hu : s'.role u = .storing i wave) :
    s.role u = .storing i wave ∨
      (u = w ∧ s.role w = .lowering i ∧ wave = s.wave + 1 ∧ s'.wave = s.wave + 1 ∧
        s'.index = i ∧ i < s.index ∧ s'.triggered = s.triggered) := by
  by_cases huw : u = w
  · subst huw
    cases hs with
    | lower hr hi _ hwave =>
      simp only [turn, Function.update_self, Role.storing.injEq] at hu
      obtain ⟨rfl, rfl⟩ := hu
      exact .inr ⟨rfl, hr, rfl, hwave hb, rfl, hi, rfl⟩
    | advance | commit => exact .inl hu
    | _ => simp [turn] at hu
  · rw [role_of_ne hs huw] at hu
    exact .inl hu

theorem claim_step (hs : Step job d w s s') {u : Fin m} {v : Version} {wave : Wave}
    (hu : (s'.role u).claim = some (v, wave)) :
    (s.role u).claim = some (v, wave) ∨ wave = s.wave := by
  by_cases huw : u = w
  · subst huw
    cases hs with
    | claim hr =>
      simp only [turn, Function.update_self, Role.claim, Option.some.injEq, Prod.mk.injEq] at hu
      exact .inr hu.2.symm
    | loadReads hr | check hr | reject hr | accept hr | keep hr =>
      rw [hr]
      simp only [turn, Function.update_self] at hu
      exact .inl hu
    | advance | commit => exact .inl hu
    | _ => simp [turn, Role.claim] at hu
  · rw [role_of_ne hs huw] at hu
    exact .inl hu

theorem validated_step (hs : Step job d w s s') {i : TxnIndex} {wave : Wave}
    (hv : s'.validated i = some wave) :
    s.validated i = some wave ∨ ∃ v, s.role w = .accepting v wave ∧ v.1 = i := by
  cases hs with
  | @finish v wave' hr =>
    simp only [turn, Function.update_apply] at hv
    split at hv
    · rename_i h
      subst h
      cases hp : s.validated v.1 with
      | none =>
        rw [hp] at hv
        cases hv
        exact .inr ⟨v, hr, rfl⟩
      | some p =>
        rw [hp] at hv
        simp only [Option.elim_some, Option.some.injEq] at hv
        rcases le_total p wave' with hle | hle
        · rw [max_eq_right hle] at hv
          exact .inr ⟨v, hv ▸ hr, rfl⟩
        · rw [max_eq_left hle] at hv
          exact .inl (by rw [hv])
    · exact .inl hv
  | _ => exact .inl hv

/-- A validation status is locked only by the worker that aborts the transaction. -/
theorem sealed_step (hs : Step job d w s s') {u : Fin m} {i : TxnIndex}
    (hu : (s'.role u).sealed = some i) :
    (s.role u).sealed = some i ∨
      (u = w ∧ ¬ s.Sealed i ∧ (∃ inc, (s.role w).owned = some (i, .aborting inc)) ∧
        s'.commitState = s.commitState) := by
  by_cases huw : u = w
  · subst huw
    cases hs with
    | hold hr hfree =>
      simp only [turn, Function.update_self, Role.sealed, Option.some.injEq] at hu
      subst hu
      exact .inr ⟨rfl, hfree, ⟨_, by rw [hr]; rfl⟩, rfl⟩
    | reset hr | lower hr | pass hr | store hr | retry hr =>
      rw [hr]
      simp only [turn, Function.update_self] at hu
      exact .inl hu
    | advance | commit => exact .inl hu
    | _ => simp [turn, Role.sealed] at hu
  · rw [role_of_ne hs huw] at hu
    exact .inl hu

theorem sealed_unique_step (h : WaveInvariant s) (hs : Step job d w s s') {u u' : Fin m}
    {i : TxnIndex} (hu : (s'.role u).sealed = some i) (hu' : (s'.role u').sealed = some i) :
    u = u' := by
  rcases sealed_step hs hu with h₁ | ⟨rfl, hfree, -⟩
  · rcases sealed_step hs hu' with h₂ | ⟨rfl, hfree, -⟩
    · exact h.sealed_unique h₁ h₂
    · exact absurd ⟨u, h₁⟩ hfree
  · rcases sealed_step hs hu' with h₂ | ⟨rfl, -⟩
    · exact absurd ⟨u', h₂⟩ hfree
    · rfl

omit [DecidableEq K] in
theorem not_committed_le (hi : StatusInvariant job s) {i : TxnIndex}
    (h : ∀ inc, s.status i ≠ .committed inc) : s.commitState.1 ≤ i := by
  by_contra hlt
  obtain ⟨inc, hinc⟩ := (hi.commit.committed_iff i).mpr (not_le.mp hlt)
  exact h inc hinc

/-- The next transaction to commit changes only when that transaction commits. -/
theorem commitIdx_step (hs : Step job d w s s') :
    s'.commitState.1 = s.commitState.1 ∨
      (s'.commitState.1 = s.commitState.1 + 1 ∧ ¬ s.Sealed s.commitState.1 ∧
        (∃ inc, s.status s.commitState.1 = .executed inc) ∧
        s.triggered s.commitState.1 ≤ s'.commitState.2 ∧ s'.role = s.role) := by
  cases hs with
  | commit hn hst hfree => exact .inr ⟨rfl, hfree, ⟨_, hst⟩, le_max_right _ _, rfl⟩
  | _ => exact .inl rfl

theorem sealed_commit_step (hi : StatusInvariant job s) (h : WaveInvariant s)
    (hs : Step job d w s s') {u : Fin m} {i : TxnIndex} (hu : (s'.role u).sealed = some i) :
    s'.commitState.1 ≤ i := by
  rcases sealed_step hs hu with h₁ | ⟨rfl, -, ⟨inc, hown⟩, hc⟩
  · have hle := h.sealed_commit h₁
    rcases commitIdx_step hs with hc | ⟨hc, hfree, -⟩
    · exact hc ▸ hle
    · have hne : s.commitState.1 ≠ i := fun he => hfree ⟨u, he ▸ h₁⟩
      exact hc ▸ lt_of_le_of_ne hle hne
  · rw [hc]
    refine not_committed_le hi fun inc' hst => ?_
    rw [hi.owns.status_eq hown] at hst
    cases hst

theorem executed_mem_step (ho : Owns s.status s.role) (h : WaveInvariant s)
    (hs : Step job d w s s') (i : TxnIndex) (hi : (s'.status i).Settled) :
    .executed (i, (s'.status i).incarnation) ∈ s'.history := by
  have hsub : ∀ {e}, e ∈ s.history → e ∈ s'.history := fun he => (history_suffix hs).subset he
  rcases status_arrow ho hs i with he | ha
  · rw [he] at hi ⊢
    exact hsub (h.executed_mem i hi)
  · have hmem := h.executed_mem i
    generalize hst : s.status i = st at ha hmem
    generalize hst' : s'.status i = st' at ha hi
    cases ha with
    | commit inc => exact hsub (hmem trivial)
    | execute inc =>
      cases hs with
      | @executed v hr =>
        have hv : v = (i, inc) := by
          simp only [turn, record, setStatus, Function.update_apply] at hst'
          split at hst'
          · rename_i h
            cases hst'
            rw [h]
          · rw [hst] at hst'
            cases hst'
        subst hv
        exact List.mem_cons_self
      | abort hr hst₁ =>
        simp only [turn, record, setStatus, Function.update_apply] at hst'
        split at hst' <;> simp_all
      | reset | incarnate | commit =>
        simp only [turn, record, setStatus, Function.update_apply] at hst'
        split at hst' <;> simp_all
      | _ => cases hst.symm.trans hst'
    | incarnate | abort | reset => exact hi.elim

theorem waveInvariant_step (hb : d.boundedWaves) (hi : StatusInvariant job s)
    (h : WaveInvariant s) (hs : Step job d w s s') : WaveInvariant s' where
  triggered_le := by
    intro i
    rcases triggered_step hs i with he | ⟨wave, hr, -, he⟩
    · exact he ▸ (h.triggered_le i).trans (wave_mono hb hs)
    · exact he ▸ (h.storing_le hr).2.trans (wave_mono hb hs)
  storing_le := by
    intro u i wave hu
    rcases storing_step hb hs hu with hr | ⟨rfl, hr, rfl, hw, -, -, ht⟩
    · refine ⟨?_, (h.storing_le hr).2.trans (wave_mono hb hs)⟩
      rcases triggered_step hs i with he | ⟨wave', hr', hr₁, -⟩
      · exact he ▸ (h.storing_le hr).1
      · have huw : u = w := h.sealed_unique (i := i) (by rw [hr]; rfl) (by rw [hr']; rfl)
        rw [huw, hr₁] at hu
        cases hu
    · rw [hw, ht]
      exact ⟨Nat.lt_succ_of_le (h.triggered_le i), le_rfl⟩
  claim_le := by
    intro u v wave hu
    rcases claim_step hs hu with hr | rfl
    · exact (h.claim_le hr).trans (wave_mono hb hs)
    · exact wave_mono hb hs
  validated_le := by
    intro i wave hv
    rcases validated_step hs hv with hv | ⟨v, hr, -⟩
    · exact (h.validated_le hv).trans (wave_mono hb hs)
    · exact (h.claim_le (by rw [hr]; rfl)).trans (wave_mono hb hs)
  commit_le := by
    rcases commitWave_step hs with he | he
    · exact he ▸ h.commit_le.trans (wave_mono hb hs)
    · exact he ▸ (max_le h.commit_le (h.triggered_le _)).trans (wave_mono hb hs)
  sealed_unique := sealed_unique_step h hs
  sealed_commit := sealed_commit_step hi h hs
  executed_mem := executed_mem_step hi.owns h hs

theorem Reachable.waveInvariant (hb : d.boundedWaves) (hr : Reachable job d s) : WaveInvariant s :=
  InterleavedRuns.invariant_of_step waveInvariant_new
    (fun _ _ ht h ⟨_, hs⟩ => waveInvariant_step hb (Reachable.statusInvariant ht) h hs) hr

/-! ## Staleness is never lost -/

theorem index_step (hs : Step job d w s s') :
    s.index ≤ s'.index ∨
      ∃ i, s.role w = .lowering i ∧ s'.role w = .storing i (s.wave + 1) ∧ s'.index = i ∧
        i < s.index := by
  cases hs with
  | claim => exact .inl (Nat.le_succ _)
  | lower hr hi => exact .inr ⟨_, hr, Function.update_self .., rfl, hi⟩
  | _ => exact .inl le_rfl

/-- An abort of a transaction below the index stays pending until it starts a new wave. -/
theorem pending_step (hi : StatusInvariant job s) (hs : Step job d w s s') {k : TxnIndex}
    (hk : k < s.index) (h : s.Pending k) :
    s'.Pending k ∨ (s'.role w = .storing k (s.wave + 1) ∧ s'.index = k) := by
  rcases h with ⟨inc, hst⟩ | ⟨u, hu⟩
  · refine .inl ?_
    rcases status_arrow hi.owns hs k with he | ha
    · exact .inl ⟨inc, he.trans hst⟩
    · rw [hst] at ha
      generalize hst' : s'.status k = st' at ha
      cases ha
      cases hs with
      | @reset v hr =>
        simp only [turn, setStatus, Function.update_apply] at hst'
        split at hst'
        · rename_i h
          exact .inr ⟨w, by rw [h]; exact Function.update_self ..⟩
        · rw [hst] at hst'
          cases hst'
      | abort | incarnate | executed | commit =>
        simp only [turn, record, setStatus, Function.update_apply] at hst'
        split at hst' <;> simp_all
      | _ => cases hst.symm.trans hst'
  · by_cases huw : u = w
    · subst huw
      cases hs with
      | lower hr =>
        rw [hu] at hr
        cases hr
        exact .inr ⟨Function.update_self .., rfl⟩
      | pass hr hle =>
        rw [hu] at hr
        cases hr
        exact absurd hk (not_lt.mpr hle)
      | advance | commit => exact .inl (.inr ⟨u, hu⟩)
      | unlock hr => rcases hr with hr | ⟨i, hr⟩ <;> rw [hu] at hr <;> cases hr
      | _ hr => rw [hu] at hr; cases hr
    · exact .inl (.inr ⟨u, by rw [role_of_ne hs huw, hu]⟩)

/-- Whatever raises the required wave keeps doing so, unless `k` itself commits. -/
theorem raises_step (hi : StatusInvariant job s) (h : WaveInvariant s) (hs : Step job d w s s')
    {i k : TxnIndex} {wave : Wave} (hle : wave ≤ s.wave) (hki : k ≤ i) (hr : s.Raises i wave k) :
    s'.Raises i wave k ∨ ∃ k' ≤ i, (∃ u wave', s'.role u = .storing k' wave' ∧ wave < wave') := by
  rcases hr with ht | ⟨u, wave', hu, hlt⟩ | ⟨hp, hidx⟩
  · refine .inl (.inl ?_)
    rcases triggered_step hs k with he | ⟨wave', hr, -, he⟩
    · exact he ▸ ht
    · exact he ▸ ht.trans (h.storing_le hr).1
  · by_cases huw : u = w
    · subst huw
      cases hs with
      | store hr =>
        rw [hu] at hr
        cases hr
        exact .inl (.inl (by simpa [turn] using hlt))
      | advance | commit => exact .inl (.inr (.inl ⟨u, wave', hu, hlt⟩))
      | unlock hr => rcases hr with hr | ⟨i, hr⟩ <;> rw [hu] at hr <;> cases hr
      | _ hr => rw [hu] at hr; cases hr
    · exact .inl (.inr (.inl ⟨u, wave', by rw [role_of_ne hs huw, hu], hlt⟩))
  · rcases pending_step hi hs (hki.trans_lt hidx) hp with hp' | ⟨hr, -⟩
    · rcases index_step hs with hge | ⟨j, -, hr, hj, -⟩
      · exact .inl (.inr (.inr ⟨hp', hidx.trans_le hge⟩))
      · by_cases hji : j ≤ i
        · exact .inr ⟨j, hji, w, _, hr, Nat.lt_succ_of_le hle⟩
        · exact .inl (.inr (.inr ⟨hp', hj ▸ not_le.mp hji⟩))
    · exact .inr ⟨k, hki, w, _, hr, Nat.lt_succ_of_le hle⟩

theorem stale_step (hi : StatusInvariant job s) (h : WaveInvariant s) (hs : Step job d w s s')
    {i : TxnIndex} {wave : Wave} (hle : wave ≤ s.wave) (hst : s.Stale i wave) :
    s'.Stale i wave := by
  rcases hst with hc | ⟨k, hki, hck, hr⟩
  · refine .inl ?_
    rcases commitWave_step hs with he | he
    · exact he ▸ hc
    · exact he ▸ hc.trans_le (le_max_left _ _)
  · have hstoring : ∀ k' ≤ i, (∃ u wave', s'.role u = .storing k' wave' ∧ wave < wave') →
        s'.Stale i wave := by
      rintro k' hk' ⟨u, wave', hu, hlt⟩
      exact .inr ⟨k', hk', sealed_commit_step hi h hs (by rw [hu]; rfl),
        .inr (.inl ⟨u, _, hu, hlt⟩)⟩
    -- a commit needs `k` unlocked and executed, so then it was the triggered wave of `k`
    rcases commitIdx_step hs with hc | ⟨hc, hfree, ⟨inc, hex⟩, htrig, hrole⟩
    · rcases raises_step hi h hs hle hki hr with hr' | ⟨k', hk', hs'⟩
      · exact .inr ⟨k, hki, hc ▸ hck, hr'⟩
      · exact hstoring k' hk' hs'
    · by_cases hk : s.commitState.1 = k
      · subst hk
        rcases hr with ht | ⟨u, wave', hu, -⟩ | ⟨⟨inc', hab⟩ | ⟨u, hu⟩, -⟩
        · exact .inl (ht.trans_le htrig)
        · exact absurd ⟨u, by rw [hu]; rfl⟩ hfree
        · rw [hex] at hab; cases hab
        · exact absurd ⟨u, by rw [hu]; rfl⟩ hfree
      · rcases raises_step hi h hs hle hki hr with hr' | ⟨k', hk', hs'⟩
        · exact .inr ⟨k, hki, hc ▸ lt_of_le_of_ne hck hk, hr'⟩
        · exact hstoring k' hk' hs'

omit [DecidableEq K] in
/-- A transaction that is unlocked and executed when its turn to commit comes is validated in
a wave that is not stale. -/
theorem not_stale_of_commit {inc : Incarnation} {wave : Wave}
    (hst : s.status s.commitState.1 = .executed inc) (hfree : ¬ s.Sealed s.commitState.1)
    (hw : max s.commitState.2 (s.triggered s.commitState.1) ≤ wave) :
    ¬ s.Stale s.commitState.1 wave := by
  rintro (hc | ⟨k, hki, hck, hr⟩)
  · exact absurd hc (not_lt.mpr ((le_max_left _ _).trans hw))
  · obtain rfl := le_antisymm hki hck
    rcases hr with ht | ⟨u, wave', hu, -⟩ | ⟨⟨inc', hab⟩ | ⟨u, hu⟩, -⟩
    · exact absurd ht (not_lt.mpr ((le_max_right _ _).trans hw))
    · exact hfree ⟨u, by rw [hu]; rfl⟩
    · rw [hst] at hab; cases hab
    · exact hfree ⟨u, by rw [hu]; rfl⟩

end Anthemius.Speculation

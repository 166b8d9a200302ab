import Anthemius.WaveInvariants

/-! Under atomic claims every claim is stale or fresh, every validated wave is stale or goes
back to a validation that returned valid, and so every commit rests on a validation claimed
when all earlier transactions had their final incarnation. -/
namespace Anthemius.Speculation
open ExecutionStatus

variable {K P E : Type} {m : ℕ}

/-- The version was claimed in this wave when the history was `past`. -/
def Claimed (history : List Event) (v : Version) (wave : Wave) (past : List Event) : Prop :=
  (.claimed v wave :: past) <:+ history

/-- A validation of that claim returned valid. -/
def Accepted (history : List Event) (v : Version) (wave : Wave) (past : List Event) : Prop :=
  ∃ later, (.validated v wave :: later) <:+ history ∧ Claimed later v wave past

/-- All transactions up to the claimed one are settled as they were at the claim. -/
structure Fresh (s : Speculation K P E m) (v : Version) (past : List Event) : Prop where
  below_index : v.1 < s.index
  settled : ∀ k ≤ v.1, (s.status k).Settled
  executed : ∀ k ≤ v.1, .executed (k, (s.status k).incarnation) ∈ past
  incarnation : (s.status v.1).incarnation = v.2

def Backed (s : Speculation K P E m) (v : Version) (wave : Wave) : Prop :=
  s.Stale v.1 wave ∨ ∃ past, Claimed s.history v wave past ∧ Fresh s v past

/-- A stale wave, or a valid validation of a fresh claim; a rejected one is too late if the
version is committed. -/
def Approved (s : Speculation K P E m) (v : Version) (wave : Wave) : Prop :=
  s.Stale v.1 wave ∨
    ∃ past, Fresh s v past ∧ (Accepted s.history v wave past ∨ s.status v.1 = .committed v.2)

/-- The commit of a version rests on a valid validation claimed after every earlier
transaction had reached the incarnation it is committed with. -/
def Justified (s : Speculation K P E m) (v : Version) : Prop :=
  ∃ earlier wave past, (.committed v :: earlier) <:+ s.history ∧ Accepted earlier v wave past ∧
    ∀ j < v.1, ∃ inc, s.status j = .committed inc ∧ .executed (j, inc) ∈ past

structure ClaimInvariant (s : Speculation K P E m) : Prop where
  settled_below : ∀ k < s.index, (s.status k).Settled ∨ s.Pending k
  backed : ∀ {u v wave}, (s.role u).claim = some (v, wave) → Backed s v wave
  accepting : ∀ {u v wave}, s.role u = .accepting v wave → Approved s v wave
  validated : ∀ {i wave}, s.validated i = some wave → ∃ inc, Approved s (i, inc) wave
  claimed_executed : ∀ {v wave past}, Claimed s.history v wave past → .executed v ∈ past
  justified : ∀ v, .committed v ∈ s.history → Justified s v

variable [DecidableEq K] {job : Job K P E} {d : Discipline} {w : Fin m} {s s' : Speculation K P E m}

omit [DecidableEq K] in
theorem claimInvariant_new : ClaimInvariant (new : Speculation K P E m) :=
  ⟨nofun, nofun, nofun, nofun, fun h => absurd (List.eq_nil_of_suffix_nil h) nofun, nofun⟩

omit [DecidableEq K] in
theorem Fresh.committed_of_ne {v : Version} {past : List Event} (h : Fresh s v past)
    (hne : s.status v.1 ≠ .executed v.2) : s.status v.1 = .committed v.2 := by
  have hset := h.settled _ le_rfl
  have hinc := h.incarnation
  cases hst : s.status v.1 <;> simp_all [Settled, ExecutionStatus.incarnation]

theorem fresh_step (hi : StatusInvariant job s) (hw : WaveInvariant s) (hs : Step job d w s s')
    {v : Version} {wave : Wave} {past : List Event} (hle : wave ≤ s.wave) (h : Fresh s v past) :
    s'.Stale v.1 wave ∨ Fresh s' v past := by
  have hi' := statusInvariant_step hi hs
  have hindex : s'.Stale v.1 wave ∨ v.1 < s'.index := by
    rcases index_step hs with hge | ⟨j, -, hr, hj, -⟩
    · exact .inr (h.below_index.trans_le hge)
    · by_cases hjv : j ≤ v.1
      · exact .inl (.inr ⟨j, hjv, sealed_commit_step hi hw hs (by rw [hr]; rfl),
          .inr (.inl ⟨w, _, hr, Nat.lt_succ_of_le hle⟩)⟩)
      · exact .inr (hj ▸ not_le.mp hjv)
  rcases hindex with hstale | hindex
  · exact .inl hstale
  -- a settled transaction can only commit or abort, and an abort below makes the claim stale
  have hkeep : ∀ k ≤ v.1, s'.Stale v.1 wave ∨
      ((s'.status k).Settled ∧ (s'.status k).incarnation = (s.status k).incarnation) := by
    intro k hk
    have hset := h.settled k hk
    rcases status_arrow hi.owns hs k with he | ha
    · exact .inr (by rw [he]; exact ⟨hset, rfl⟩)
    · generalize hst : s.status k = st at ha hset
      generalize hst' : s'.status k = st' at ha
      cases ha with
      | commit inc => exact .inr ⟨trivial, rfl⟩
      | abort inc =>
        refine .inl (.inr ⟨k, hk, ?_, .inr (.inr ⟨.inl ⟨inc, hst'⟩, hindex⟩)⟩)
        exact not_committed_le hi' fun inc' hc => by rw [hst'] at hc; cases hc
      | incarnate | execute | reset => exact hset.elim
  by_cases hstale : s'.Stale v.1 wave
  · exact .inl hstale
  · have hkeep' := fun k hk => (hkeep k hk).resolve_left hstale
    exact .inr {
      below_index := hindex
      settled := fun k hk => (hkeep' k hk).1
      executed := fun k hk => (hkeep' k hk).2 ▸ h.executed k hk
      incarnation := (hkeep' v.1 le_rfl).2.trans h.incarnation }

theorem backed_step (hi : StatusInvariant job s) (hw : WaveInvariant s) (hs : Step job d w s s')
    {v : Version} {wave : Wave} (hle : wave ≤ s.wave) (h : Backed s v wave) : Backed s' v wave := by
  rcases h with hstale | ⟨past, hc, hf⟩
  · exact .inl (stale_step hi hw hs hle hstale)
  · rcases fresh_step hi hw hs hle hf with hstale | hf'
    · exact .inl hstale
    · exact .inr ⟨past, hc.trans (history_suffix hs), hf'⟩

omit [DecidableEq K] in
theorem Accepted.mono {history history' past : List Event} {v : Version} {wave : Wave}
    (h : Accepted history v wave past) (hsub : history <:+ history') :
    Accepted history' v wave past := by
  obtain ⟨later, hl, hc⟩ := h
  exact ⟨later, hl.trans hsub, hc⟩

theorem approved_step (hi : StatusInvariant job s) (hw : WaveInvariant s) (hs : Step job d w s s')
    {v : Version} {wave : Wave} (hle : wave ≤ s.wave) (h : Approved s v wave) :
    Approved s' v wave := by
  rcases h with hstale | ⟨past, hf, ha⟩
  · exact .inl (stale_step hi hw hs hle hstale)
  · rcases fresh_step hi hw hs hle hf with hstale | hf'
    · exact .inl hstale
    · refine .inr ⟨past, hf', ?_⟩
      rcases ha with ha | hc
      · exact .inl (ha.mono (history_suffix hs))
      · exact .inr (committed_stable hi.owns hs hc)

theorem justified_step (hi : StatusInvariant job s) (hs : Step job d w s s') {v : Version}
    (h : Justified s v) : Justified s' v := by
  obtain ⟨earlier, wave, past, hsuf, hacc, hbelow⟩ := h
  refine ⟨earlier, wave, past, hsuf.trans (history_suffix hs), hacc, fun j hj => ?_⟩
  obtain ⟨inc, hst, hmem⟩ := hbelow j hj
  exact ⟨inc, committed_stable hi.owns hs hst, hmem⟩

omit [DecidableEq K] in
theorem pending_commit_le (hi : StatusInvariant job s) (hw : WaveInvariant s) {k : TxnIndex}
    (h : s.Pending k) : s.commitState.1 ≤ k := by
  rcases h with ⟨inc, hst⟩ | ⟨u, hu⟩
  · exact not_committed_le hi fun inc' hc => by rw [hst] at hc; cases hc
  · exact hw.sealed_commit (by rw [hu]; rfl)

/-- The index passes a transaction only when it is claimed. -/
theorem settled_below_step (hd : d.atomicClaims) (hi : StatusInvariant job s)
    (h : ClaimInvariant s) (hs : Step job d w s s') (k : TxnIndex) (hk : k < s'.index) :
    (s'.status k).Settled ∨ s'.Pending k := by
  by_cases hks : k < s.index
  · rcases h.settled_below k hks with hset | hp
    · rcases status_arrow hi.owns hs k with he | ha
      · exact .inl (he ▸ hset)
      · generalize hst : s.status k = st at ha hset
        generalize hst' : s'.status k = st' at ha
        cases ha with
        | commit => exact .inl trivial
        | abort inc => exact .inr (.inl ⟨inc, hst'⟩)
        | incarnate | execute | reset => exact hset.elim
    · rcases pending_step hi hs hks hp with hp' | ⟨-, he⟩
      · exact .inr hp'
      · exact absurd (he ▸ hk) (lt_irrefl k)
  · cases hs with
    | @claim i inc hr hatomic =>
      obtain ⟨rfl, hst⟩ := hatomic hd
      obtain rfl : k = s.index := le_antisymm (Nat.le_of_lt_succ hk) (not_lt.mp hks)
      exact .inl (show (s.status s.index).Settled by rw [hst]; trivial)
    | lower hr hlt => exact absurd (lt_trans hk hlt) hks
    | _ => exact absurd hk hks

theorem backed_claim (hb : d.boundedWaves) (hi : StatusInvariant job s) (hw : WaveInvariant s)
    (h : ClaimInvariant s) {inc : Incarnation} (hst : s.status s.index = .executed inc)
    (hs : Step job d w s s') (hstatus : s'.status = s.status) (hindex : s'.index = s.index + 1)
    (hhist : s'.history = .claimed (s.index, inc) s.wave :: s.history) :
    Backed s' (s.index, inc) s.wave := by
  by_cases hp : ∃ k < s.index, s.Pending k
  · obtain ⟨k, hk, hp⟩ := hp
    rcases pending_step hi hs hk hp with hp' | ⟨-, he⟩
    · have hlt : s.index < s'.index := hindex ▸ Nat.lt_succ_self _
      exact .inl (.inr ⟨k, hk.le, pending_commit_le (statusInvariant_step hi hs)
        (waveInvariant_step hb hi hw hs) hp', .inr (.inr ⟨hp', hlt⟩)⟩)
    · rw [hindex] at he
      exact absurd (he ▸ hk) (Nat.not_succ_lt_self)
  · have hsettled : ∀ k ≤ s.index, (s.status k).Settled := by
      intro k hk
      rcases hk.lt_or_eq with hlt | rfl
      · exact (h.settled_below k hlt).resolve_right fun hpk => hp ⟨k, hlt, hpk⟩
      · rw [hst]; trivial
    refine .inr ⟨s.history, hhist ▸ List.suffix_refl _, ?_⟩
    exact {
      below_index := hindex ▸ Nat.lt_succ_self _
      settled := fun k hk => hstatus ▸ hsettled k hk
      executed := fun k hk => hstatus ▸ hw.executed_mem k (hsettled k hk)
      incarnation := by rw [hstatus, hst]; rfl }

theorem claim_backed_step (hd : d.atomicClaims) (hb : d.boundedWaves) (hi : StatusInvariant job s)
    (hw : WaveInvariant s) (h : ClaimInvariant s) (hs : Step job d w s s') {u : Fin m}
    {v : Version} {wave : Wave} (hu : (s'.role u).claim = some (v, wave)) : Backed s' v wave := by
  have hold : (s.role u).claim = some (v, wave) → Backed s' v wave :=
    fun hc => backed_step hi hw hs (hw.claim_le hc) (h.backed hc)
  by_cases huw : u = w
  · subst huw
    have hs₀ := hs
    cases hs with
    | @claim i inc hr hatomic =>
      obtain ⟨rfl, hst⟩ := hatomic hd
      simp only [turn, Function.update_self, Role.claim, Option.some.injEq, Prod.mk.injEq] at hu
      obtain ⟨rfl, rfl⟩ := hu
      exact backed_claim hb hi hw h hst hs₀ rfl rfl rfl
    | loadReads hr | check hr | reject hr | accept hr | keep hr =>
      refine hold ?_
      rw [hr]
      simp only [turn, Function.update_self] at hu
      exact hu
    | advance | commit => exact hold hu
    | _ => simp [turn, Role.claim] at hu
  · rw [role_of_ne hs huw] at hu
    exact hold hu

theorem accepting_step (hi : StatusInvariant job s) (hw : WaveInvariant s) (h : ClaimInvariant s)
    (hs : Step job d w s s') {u : Fin m} {v : Version} {wave : Wave}
    (hu : s'.role u = .accepting v wave) : Approved s' v wave := by
  have hold : s.role u = .accepting v wave → Approved s' v wave := fun hc =>
    approved_step hi hw hs (hw.claim_le (by rw [hc]; rfl)) (h.accepting hc)
  by_cases huw : u = w
  · subst huw
    have hs₀ := hs
    cases hs with
    | @accept v wave hr =>
      simp only [turn, Function.update_self, Role.accepting.injEq] at hu
      obtain ⟨rfl, rfl⟩ := hu
      have hc : (s.role u).claim = some (v, wave) := by rw [hr]; rfl
      rcases h.backed hc with hstale | ⟨past, hcl, hf⟩
      · exact .inl (stale_step hi hw hs₀ (hw.claim_le hc) hstale)
      · rcases fresh_step hi hw hs₀ (hw.claim_le hc) hf with hstale | hf'
        · exact .inl hstale
        · exact .inr ⟨past, hf', .inl ⟨s.history, List.suffix_refl _, hcl⟩⟩
    | @keep v wave hr hne =>
      simp only [turn, Function.update_self, Role.accepting.injEq] at hu
      obtain ⟨rfl, rfl⟩ := hu
      have hc : (s.role u).claim = some (v, wave) := by rw [hr]; rfl
      rcases h.backed hc with hstale | ⟨past, hcl, hf⟩
      · exact .inl (stale_step hi hw hs₀ (hw.claim_le hc) hstale)
      · exact .inr ⟨past, ⟨hf.below_index, hf.settled, hf.executed, hf.incarnation⟩,
          .inr (hf.committed_of_ne hne)⟩
    | advance | commit => exact hold hu
    | _ => simp [turn] at hu
  · rw [role_of_ne hs huw] at hu
    exact hold hu

theorem claimed_executed_step (hd : d.atomicClaims) (hw : WaveInvariant s) (h : ClaimInvariant s)
    (hs : Step job d w s s') {v : Version} {wave : Wave} {past : List Event}
    (hc : Claimed s'.history v wave past) : .executed v ∈ past := by
  cases hs with
  | @claim i inc hr hatomic =>
    obtain ⟨rfl, hst⟩ := hatomic hd
    rcases List.suffix_cons_iff.mp hc with he | hc
    · cases he
      have := hw.executed_mem s.index (by rw [hst]; trivial)
      rwa [hst] at this
    · exact h.claimed_executed hc
  | accept | abort | incarnate | executed | commit =>
    rcases List.suffix_cons_iff.mp hc with he | hc
    · cases he
    · exact h.claimed_executed hc
  | _ => exact h.claimed_executed hc

omit [DecidableEq K] in
/-- The commit of the next transaction is backed by its validated wave. -/
theorem justified_commit (hi : StatusInvariant job s)
    (h : ClaimInvariant s) {inc : Incarnation} {wave : Wave}
    (hst : s.status s.commitState.1 = .executed inc) (hfree : ¬ s.Sealed s.commitState.1)
    (hv : s.validated s.commitState.1 = some wave)
    (hmax : max s.commitState.2 (s.triggered s.commitState.1) ≤ wave)
    (hstatus : s'.status = Function.update s.status s.commitState.1 (.committed inc))
    (hhist : s'.history = .committed (s.commitState.1, inc) :: s.history) :
    Justified s' (s.commitState.1, inc) := by
  obtain ⟨inc', happ⟩ := h.validated hv
  obtain ⟨past, hf, hacc⟩ := happ.resolve_left (not_stale_of_commit hst hfree hmax)
  obtain rfl : inc = inc' := by
    have := hf.incarnation
    rwa [hst] at this
  refine ⟨s.history, wave, past, hhist ▸ List.suffix_refl _, ?_, fun j hj => ?_⟩
  · refine hacc.resolve_right fun hc => ?_
    rw [hst] at hc
    cases hc
  · obtain ⟨incj, hj'⟩ := (hi.commit.committed_iff j).mpr hj
    refine ⟨incj, ?_, ?_⟩
    · rw [hstatus, Function.update_of_ne hj.ne, hj']
    · have := hf.executed j hj.le
      rwa [hj'] at this

theorem claimInvariant_step (hd : d.atomicClaims) (hb : d.boundedWaves)
    (hi : StatusInvariant job s) (hw : WaveInvariant s) (h : ClaimInvariant s)
    (hs : Step job d w s s') : ClaimInvariant s' where
  settled_below := settled_below_step hd hi h hs
  backed := claim_backed_step hd hb hi hw h hs
  accepting := accepting_step hi hw h hs
  validated := by
    intro i wave hv
    rcases validated_step hs hv with hv | ⟨v, hr, rfl⟩
    · obtain ⟨inc, happ⟩ := h.validated hv
      exact ⟨inc, approved_step hi hw hs (hw.validated_le hv) happ⟩
    · exact ⟨v.2, approved_step hi hw hs (hw.claim_le (by rw [hr]; rfl)) (h.accepting hr)⟩
  claimed_executed := claimed_executed_step hd hw h hs
  justified := by
    intro v hv
    have hold : .committed v ∈ s.history → Justified s' v :=
      fun hm => justified_step hi hs (h.justified v hm)
    cases hs with
    | commit hn hst hfree hval hmax =>
      rcases List.mem_cons.mp hv with he | hv
      · cases he
        exact justified_commit hi h hst hfree hval hmax rfl rfl
      · exact hold hv
    | claim | accept | abort | incarnate | executed =>
      rcases List.mem_cons.mp hv with he | hv
      · cases he
      · exact hold hv
    | _ => exact hold hv

theorem Reachable.claimInvariant (hd : d.atomicClaims) (hb : d.boundedWaves)
    (hr : Reachable job d s) : ClaimInvariant s :=
  InterleavedRuns.invariant_of_step claimInvariant_new
    (fun _ _ ht h ⟨_, hs⟩ => claimInvariant_step hd hb (Reachable.statusInvariant ht)
      (Reachable.waveInvariant hb ht) h hs) hr

end Anthemius.Speculation

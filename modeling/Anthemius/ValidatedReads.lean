import Anthemius.ClaimInvariants
import Anthemius.ExecutionMirror

/-! Under atomic claims a validation that counts for a commit has compared every recorded
read with the map as it still is: while its claim is fresh, all transactions up to the
claimed one are settled, and nobody touches the column of a settled transaction. So the reads
of a committed transaction agree with the map for good. -/
namespace Anthemius.Speculation
open ExecutionStatus

variable {K P E : Type} {m : ℕ} [DecidableEq K] {job : Job K P E} {d : Discipline} {w : Fin m}
  {s s' : Speculation K P E m}

/-- A repeated read would be recorded in the same way. -/
def Matches (mv : MVHashMap K) (i : TxnIndex) (r : ReadDescriptor K) : Prop :=
  ∃ res, mv.read r.accessPath i = some res ∧ r.kind.validate res = true

/-- All recorded reads of the transaction agree with the map. -/
def AllMatch (s : Speculation K P E m) (i : TxnIndex) : Prop :=
  ∀ reads, s.io.inputs i = some reads → ∀ r ∈ reads, Matches s.mv i r

structure ReadInvariant (s : Speculation K P E m) : Prop where
  reading : ∀ {u v wave rest}, s.role u = .validating v wave (.reading rest) →
    s.Stale v.1 wave ∨ ∀ reads, s.io.inputs v.1 = some reads →
      ∀ r ∈ reads, r ∈ rest ∨ Matches s.mv v.1 r
  accepting : ∀ {u v wave}, s.role u = .accepting v wave → s.Stale v.1 wave ∨ AllMatch s v.1
  validated : ∀ {i wave}, s.validated i = some wave → s.Stale i wave ∨ AllMatch s i
  committed : ∀ {i inc}, s.status i = .committed inc → AllMatch s i

/-- Only a worker in charge of a transaction changes its column. -/
theorem column_step (ho : Owns s.status s.role) (hs : Step job d w s s') {i : TxnIndex}
    (hi : (s.status i).Settled) : columnOf s'.mv s'.io i = columnOf s.mv s.io i := by
  have hne {st : ExecutionStatus} {j : TxnIndex} (hw : (s.role w).owned = some (j, st)) :
      i ≠ j := by
    rintro rfl
    exact Role.owned_not_settled hw (ho.status_eq hw ▸ hi)
  cases hs with
  | compute hr hc => exact hc.column_of_ne (hne (by rw [hr]; rfl))
  | mark hr hk hm =>
    obtain ⟨e, he, rfl⟩ := MVHashMap.markEstimate_some hm
    have := hne (by rw [hr]; rfl)
    simp [columnOf, turn, MVHashMap.entry_insertEntry, this]
  | _ => rfl

/-- While all transactions up to it are settled, a transaction keeps its reads and what they
agree with. -/
theorem matches_step (ho : Owns s.status s.role) (hs : Step job d w s s') {i : TxnIndex}
    (hset : ∀ k ≤ i, (s.status k).Settled) :
    s'.io.inputs i = s.io.inputs i ∧ ∀ r, Matches s.mv i r → Matches s'.mv i r := by
  refine ⟨congrArg Column.input (column_step ho hs (hset i le_rfl)), fun r ⟨res, hr, hv⟩ => ?_⟩
  refine ⟨res, ?_, hv⟩
  rw [← hr]
  refine MVHashMap.read_congr fun k hk => ?_
  exact congrFun (congrArg Column.entries (column_step ho hs (hset k hk.le))) r.accessPath

theorem allMatch_step (ho : Owns s.status s.role) (hs : Step job d w s s') {i : TxnIndex}
    (hset : ∀ k ≤ i, (s.status k).Settled) (h : AllMatch s i) : AllMatch s' i := by
  obtain ⟨hin, hkeep⟩ := matches_step ho hs hset
  exact fun reads hr r hmem => hkeep r (h reads (hin ▸ hr) r hmem)

/-- A claim that does not become stale keeps what it has established. -/
theorem allMatch_or_stale_step (hi : StatusInvariant job s) (hw : WaveInvariant s)
    (hs : Step job d w s s') {i : TxnIndex} {wave : Wave} (hle : wave ≤ s.wave)
    (hfresh : s.Stale i wave ∨ ∀ k ≤ i, (s.status k).Settled)
    (h : s.Stale i wave ∨ AllMatch s i) : s'.Stale i wave ∨ AllMatch s' i := by
  rcases h with hstale | hall
  · exact .inl (stale_step hi hw hs hle hstale)
  · rcases hfresh with hstale | hset
    · exact .inl (stale_step hi hw hs hle hstale)
    · exact .inr (allMatch_step hi.owns hs hset hall)

section Steps
variable (hi : StatusInvariant job s) (hw : WaveInvariant s) (hc : ClaimInvariant s)
  (h : ReadInvariant s) (hs : Step job d w s s')
include hi hw hc h hs

omit [DecidableEq K] h hs hi hw in
theorem settled_of_claim {u : Fin m} {v : Version} {wave : Wave}
    (hu : (s.role u).claim = some (v, wave)) :
    s.Stale v.1 wave ∨ ∀ k ≤ v.1, (s.status k).Settled :=
  (hc.backed hu).imp id fun ⟨_, _, hf⟩ => hf.settled

theorem reading_step {u : Fin m} {v : Version} {wave : Wave} {rest : List (ReadDescriptor K)}
    (hu : s'.role u = .validating v wave (.reading rest)) :
    s'.Stale v.1 wave ∨ ∀ reads, s'.io.inputs v.1 = some reads →
      ∀ r ∈ reads, r ∈ rest ∨ Matches s'.mv v.1 r := by
  have hold : s.role u = .validating v wave (.reading rest) → s'.Stale v.1 wave ∨
      ∀ reads, s'.io.inputs v.1 = some reads → ∀ r ∈ reads, r ∈ rest ∨ Matches s'.mv v.1 r := by
    intro hr
    have hclaim : (s.role u).claim = some (v, wave) := by rw [hr]; rfl
    have hle := hw.claim_le hclaim
    rcases h.reading hr with hstale | hmatch
    · exact .inl (stale_step hi hw hs hle hstale)
    · rcases settled_of_claim hc hclaim with hstale | hset
      · exact .inl (stale_step hi hw hs hle hstale)
      · obtain ⟨hin, hkeep⟩ := matches_step hi.owns hs hset
        exact .inr fun reads hreads r hmem =>
          (hmatch reads (hin ▸ hreads) r hmem).imp id (hkeep r)
  by_cases huw : u = w
  · subst huw
    have hs₀ := hs
    cases hs with
    | @loadReads v' wave' reads hr hin =>
      simp only [turn, Function.update_self, Role.validating.injEq,
        ValidatePhase.reading.injEq] at hu
      obtain ⟨rfl, rfl, rfl⟩ := hu
      refine .inr fun reads' hreads r hmem => .inl ?_
      cases hin.symm.trans hreads
      exact hmem
    | @check v' wave' r rest' res hr hread hval =>
      simp only [turn, Function.update_self, Role.validating.injEq,
        ValidatePhase.reading.injEq] at hu
      obtain ⟨rfl, rfl, rfl⟩ := hu
      rcases h.reading hr with hstale | hmatch
      · exact .inl (stale_step hi hw hs₀ (hw.claim_le (by rw [hr]; rfl)) hstale)
      · refine .inr fun reads hreads r' hmem => ?_
        rcases hmatch reads hreads r' hmem with hmem' | hm
        · rcases List.mem_cons.mp hmem' with rfl | hmem'
          · exact .inr ⟨res, hread, hval⟩
          · exact .inl hmem'
        · exact .inr hm
    | advance | commit => exact hold hu
    | _ => simp [turn] at hu
  · rw [role_of_ne hs huw] at hu
    exact hold hu

theorem accepting_match_step {u : Fin m} {v : Version} {wave : Wave}
    (hu : s'.role u = .accepting v wave) : s'.Stale v.1 wave ∨ AllMatch s' v.1 := by
  have hold : s.role u = .accepting v wave → s'.Stale v.1 wave ∨ AllMatch s' v.1 := by
    intro hr
    have hclaim : (s.role u).claim = some (v, wave) := by rw [hr]; rfl
    exact allMatch_or_stale_step hi hw hs (hw.claim_le hclaim) (settled_of_claim hc hclaim)
      (h.accepting hr)
  by_cases huw : u = w
  · subst huw
    have hs₀ := hs
    cases hs with
    | @accept v' wave' hr =>
      simp only [turn, Function.update_self, Role.accepting.injEq] at hu
      obtain ⟨rfl, rfl⟩ := hu
      rcases h.reading hr with hstale | hmatch
      · exact .inl (stale_step hi hw hs₀ (hw.claim_le (by rw [hr]; rfl)) hstale)
      · exact .inr fun reads hreads r hmem =>
          (hmatch reads hreads r hmem).resolve_left fun h => by cases h
    | @keep v' wave' hr hne =>
      simp only [turn, Function.update_self, Role.accepting.injEq] at hu
      obtain ⟨rfl, rfl⟩ := hu
      have hclaim : (s.role u).claim = some (v', wave') := by rw [hr]; rfl
      rcases hc.backed hclaim with hstale | ⟨past, -, hf⟩
      · exact .inl (stale_step hi hw hs₀ (hw.claim_le hclaim) hstale)
      · exact .inr (h.committed (hf.committed_of_ne hne))
    | advance | commit => exact hold hu
    | _ => simp [turn] at hu
  · rw [role_of_ne hs huw] at hu
    exact hold hu

theorem validated_match_step {i : TxnIndex} {wave : Wave} (hv : s'.validated i = some wave) :
    s'.Stale i wave ∨ AllMatch s' i := by
  rcases validated_step hs hv with hv | ⟨v, hr, rfl⟩
  · refine allMatch_or_stale_step hi hw hs (hw.validated_le hv) ?_ (h.validated hv)
    obtain ⟨inc, happ⟩ := hc.validated hv
    exact happ.imp id fun ⟨_, hf, _⟩ => hf.settled
  · have hclaim : (s.role w).claim = some (v, wave) := by rw [hr]; rfl
    exact allMatch_or_stale_step hi hw hs (hw.claim_le hclaim) (settled_of_claim hc hclaim)
      (h.accepting hr)

omit hc hw in
theorem committed_match_step {i : TxnIndex} {inc : Incarnation}
    (hst : s'.status i = .committed inc) : AllMatch s' i := by
  have hold : s.status i = .committed inc → AllMatch s' i := by
    intro hcom
    refine allMatch_step hi.owns hs (fun k hk => ?_) (h.committed hcom)
    obtain ⟨inc', hk'⟩ := (hi.commit.committed_iff k).mpr
      (hk.trans_lt ((hi.commit.committed_iff i).mp ⟨inc, hcom⟩))
    rw [hk']
    trivial
  cases hs with
  | commit hn hex hfree hv hmax =>
    by_cases hic : i = s.commitState.1
    · subst hic
      exact (h.validated hv).resolve_left (not_stale_of_commit hex hfree hmax)
    · simp only [setStatus, record, Function.update_of_ne hic] at hst
      exact hold hst
  | abort | reset | incarnate | executed =>
    simp only [turn, setStatus, record, Function.update_apply] at hst
    split at hst
    · cases hst
    · exact hold hst
  | _ => exact hold hst

theorem readInvariant_step : ReadInvariant s' where
  reading := reading_step hi hw hc h hs
  accepting := accepting_match_step hi hw hc h hs
  validated := validated_match_step hi hw hc h hs
  committed := committed_match_step hi h hs

end Steps

theorem Reachable.readInvariant (hd : d.atomicClaims) (hb : d.boundedWaves)
    (hr : Reachable job d s) : ReadInvariant s :=
  InterleavedRuns.invariant_of_step ⟨nofun, nofun, nofun, nofun⟩
    (fun _ _ ht h ⟨_, hs⟩ => readInvariant_step (Reachable.statusInvariant ht)
      (Reachable.waveInvariant hb ht) (Reachable.claimInvariant hd hb ht) h hs) hr

end Anthemius.Speculation

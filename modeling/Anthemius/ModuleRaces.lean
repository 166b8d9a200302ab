import Anthemius.InterleavedRuns
import Anthemius.SpeculativeView
import Mathlib.Data.Finset.Insert

/-!
# Recording executions and races on modules

Every execution is recorded with its reads and its output, and the paths of the modules among
them go into two shared sets. A call first shows a path in its own set and then looks for it
in the other one. Calls run concurrently; one step of a call is one operation on a set, on the
flag or on a slot of the last inputs and outputs.
-/
namespace Anthemius

/-- One execution that is recorded. -/
structure RecordCall (K P E : Type) where
  txnIdx : TxnIndex
  input : List (ReadDescriptor K)
  output : TxnOutput K P E

namespace RecordCall
variable {K P E A : Type} (modulePath : K → Option A) (call : RecordCall K P E)

def readModules : List A := call.input.filterMap fun desc => modulePath desc.accessPath

def writtenModules : List A :=
  match call.output.output? with
  | some output => output.getWrites.filterMap fun w => modulePath w.1
  | none => []

end RecordCall

/-- Positions inside `record`. The two calls of `append_and_check` are told apart by whether
the paths at hand were read; `appending` is before an insertion, `checking` after it. -/
inductive RecordPc (A : Type)
  | start
  | appending (read : Bool) (paths : List A)
  | checking (read : Bool) (path : A) (rest : List A)
  | flagging
  | storeInput
  | storeOutput
  | returned
  deriving DecidableEq

/-- The shared data and the positions of the calls. -/
structure RecordState (C K P E A : Type) where
  io : TxnLastInputOutput K P E
  moduleReads : Finset A
  moduleWrites : Finset A
  moduleReadWriteIntersection : Bool
  pc : C → RecordPc A

namespace RecordState
variable {C K P E A : Type} [DecidableEq C] [DecidableEq A]

def new : RecordState C K P E A := ⟨.new, ∅, ∅, false, fun _ => .start⟩

def modulePublishingMayRace (s : RecordState C K P E A) : Bool := s.moduleReadWriteIntersection

def move (s : RecordState C K P E A) (c : C) (pc : RecordPc A) : RecordState C K P E A :=
  { s with pc := Function.update s.pc c pc }

/-- The paths that a call inserts into the set of reads, or into the set of writes. -/
def insertPath (s : RecordState C K P E A) (read : Bool) (path : A) : RecordState C K P E A :=
  if read then { s with moduleReads := insert path s.moduleReads }
  else { s with moduleWrites := insert path s.moduleWrites }

/-- The set that is looked into after an insertion. -/
def checkedSet (s : RecordState C K P E A) (read : Bool) : Finset A :=
  if read then s.moduleWrites else s.moduleReads

variable (modulePath : K → Option A) (calls : C → RecordCall K P E)

/-- One step of a call. The flag is first loaded with relaxed ordering: the label says whether
the load still sees the value before another call set it. -/
def step (l : C × Bool) (s : RecordState C K P E A) : Option (RecordState C K P E A) :=
  let call := calls l.1
  match s.pc l.1 with
  | .start =>
    if s.moduleReadWriteIntersection && !l.2 then some (s.move l.1 .storeInput)
    else some (s.move l.1 (.appending true (call.readModules modulePath)))
  | .appending read (path :: rest) =>
    some ((s.insertPath read path).move l.1 (.checking read path rest))
  | .appending true [] => some (s.move l.1 (.appending false (call.writtenModules modulePath)))
  | .appending false [] => some (s.move l.1 .storeInput)
  | .checking read path rest =>
    if path ∈ s.checkedSet read then some (s.move l.1 .flagging)
    else some (s.move l.1 (.appending read rest))
  | .flagging => some ({ s with moduleReadWriteIntersection := true }.move l.1 .storeInput)
  | .storeInput => some ({ s with
      io := { s.io with
        inputs := Function.update s.io.inputs call.txnIdx
          (some call.input) } }.move l.1 .storeOutput)
  | .storeOutput => some ({ s with
      io := { s.io with
        outputs := Function.update s.io.outputs call.txnIdx
          (some call.output) } }.move l.1 .returned)
  | .returned => none

def Reachable : RecordState C K P E A → Prop :=
  InterleavedRuns.Reachable (step modulePath calls) InterleavedRuns.anyStep new

/-! ## Show, then look -/

/-- Where the paths of a call are: in the shared sets as far as the call has got, unless a
race was found. -/
def Shown (s : RecordState C K P E A) (c : C) : Prop :=
  let reads := (calls c).readModules modulePath
  let writes := (calls c).writtenModules modulePath
  match s.pc c with
  | .start | .flagging => True
  | .appending true rest | .checking true _ rest => ∀ p ∈ reads, p ∈ s.moduleReads ∨ p ∈ rest
  | .appending false rest | .checking false _ rest =>
    (∀ p ∈ reads, p ∈ s.moduleReads) ∧ ∀ p ∈ writes, p ∈ s.moduleWrites ∨ p ∈ rest
  | .storeInput | .storeOutput | .returned => s.moduleReadWriteIntersection = true ∨
    (∀ p ∈ reads, p ∈ s.moduleReads) ∧ ∀ p ∈ writes, p ∈ s.moduleWrites

/-- A path in both sets has been noticed, or the call that inserted it last is about to look. -/
def Noticed (s : RecordState C K P E A) (p : A) : Prop :=
  s.moduleReadWriteIntersection = true ∨ (∃ c, s.pc c = .flagging) ∨
    ∃ c read rest, s.pc c = .checking read p rest

structure RaceInvariant (s : RecordState C K P E A) : Prop where
  shown : ∀ c, s.Shown modulePath calls c
  noticed : ∀ p ∈ s.moduleReads, p ∈ s.moduleWrites → s.Noticed p

section InsertPath
variable (s : RecordState C K P E A) (read : Bool) (path : A)

omit [DecidableEq C]

theorem pc_insertPath : (s.insertPath read path).pc = s.pc := by
  cases read <;> rfl

theorem moduleReadWriteIntersection_insertPath :
    (s.insertPath read path).moduleReadWriteIntersection = s.moduleReadWriteIntersection := by
  cases read <;> rfl

theorem moduleReads_subset_insertPath : s.moduleReads ⊆ (s.insertPath read path).moduleReads := by
  cases read with
  | true => exact Finset.subset_insert _ _
  | false => exact subset_rfl

theorem moduleWrites_subset_insertPath :
    s.moduleWrites ⊆ (s.insertPath read path).moduleWrites := by
  cases read with
  | true => exact subset_rfl
  | false => exact Finset.subset_insert _ _

end InsertPath

section Steps
variable {modulePath calls} {s t : RecordState C K P E A} {c : C} {pc : RecordPc A} {p : A}

omit [DecidableEq C] [DecidableEq A] in
theorem Shown.mono {c' : C} (h : s.Shown modulePath calls c') (hpc : t.pc c' = s.pc c')
    (hr : s.moduleReads ⊆ t.moduleReads) (hw : s.moduleWrites ⊆ t.moduleWrites)
    (hf : s.moduleReadWriteIntersection = true → t.moduleReadWriteIntersection = true) :
    t.Shown modulePath calls c' := by
  unfold Shown at h ⊢
  dsimp only at h ⊢
  rw [hpc]
  split at h
  · trivial
  · trivial
  · exact fun p hp => (h p hp).imp_left fun hm => hr hm
  · exact fun p hp => (h p hp).imp_left fun hm => hr hm
  · exact ⟨fun p hp => hr (h.1 p hp), fun p hp => (h.2 p hp).imp_left fun hm => hw hm⟩
  · exact ⟨fun p hp => hr (h.1 p hp), fun p hp => (h.2 p hp).imp_left fun hm => hw hm⟩
  all_goals exact h.imp hf fun h => ⟨fun p hp => hr (h.1 p hp), fun p hp => hw (h.2 p hp)⟩

omit [DecidableEq A] in
/-- What was noticed stays noticed, unless it was the moving call that was about to look. -/
theorem Noticed.move (h : s.Noticed p) (hpcs : t.pc = s.pc)
    (hf : s.moduleReadWriteIntersection = true → t.moduleReadWriteIntersection = true)
    (hflag : s.pc c ≠ .flagging) (hlook : ∀ read rest, s.pc c ≠ .checking read p rest) :
    (t.move c pc).Noticed p := by
  have hother {c' : C} (hne : s.pc c' ≠ s.pc c) : (t.move c pc).pc c' = s.pc c' := by
    have hcc : c' ≠ c := fun h => hne (h ▸ rfl)
    simp [RecordState.move, hcc, hpcs]
  rcases h with h | ⟨c', h⟩ | ⟨c', read, rest, h⟩
  · exact .inl (hf h)
  · exact .inr (.inl ⟨c', (hother (h ▸ hflag.symm)).trans h⟩)
  · exact .inr (.inr ⟨c', read, rest, (hother (h ▸ (hlook read rest).symm)).trans h⟩)

omit [DecidableEq A] in
/-- A step of one call, over sets and a flag that only grow. -/
theorem RaceInvariant.move (h : RaceInvariant modulePath calls s) (hpcs : t.pc = s.pc)
    (hr : s.moduleReads ⊆ t.moduleReads) (hw : s.moduleWrites ⊆ t.moduleWrites)
    (hf : s.moduleReadWriteIntersection = true → t.moduleReadWriteIntersection = true)
    (hc : (t.move c pc).Shown modulePath calls c)
    (hn : ∀ p ∈ t.moduleReads, p ∈ t.moduleWrites → (t.move c pc).Noticed p) :
    RaceInvariant modulePath calls (t.move c pc) where
  shown c' := by
    by_cases hcc : c' = c
    · exact hcc ▸ hc
    · refine (h.shown c').mono ?_ hr hw hf
      simp [RecordState.move, hcc, hpcs]
  noticed := hn

omit [DecidableEq A] in
/-- A step that changes no set, of a call that was not about to look. -/
theorem RaceInvariant.quiet (h : RaceInvariant modulePath calls s) (hpcs : t.pc = s.pc)
    (hr : t.moduleReads = s.moduleReads) (hw : t.moduleWrites = s.moduleWrites)
    (hf : t.moduleReadWriteIntersection = s.moduleReadWriteIntersection)
    (hflag : s.pc c ≠ .flagging) (hlook : ∀ read p rest, s.pc c ≠ .checking read p rest)
    (hc : (t.move c pc).Shown modulePath calls c) :
    RaceInvariant modulePath calls (t.move c pc) := by
  refine h.move hpcs hr.symm.subset hw.symm.subset (fun h => hf ▸ h) hc fun p hp hp' => ?_
  exact (h.noticed p (hr ▸ hp) (hw ▸ hp')).move hpcs (fun h => hf ▸ h) hflag fun r => hlook r p

theorem raceInvariant_insert (h : RaceInvariant modulePath calls s) {read : Bool} {path : A}
    {rest : List A} (hpc : s.pc c = .appending read (path :: rest)) :
    RaceInvariant modulePath calls
      ((s.insertPath read path).move c (.checking read path rest)) := by
  have hsh := h.shown c
  have hf := s.moduleReadWriteIntersection_insertPath read path
  refine h.move (s.pc_insertPath read path) (s.moduleReads_subset_insertPath read path)
    (s.moduleWrites_subset_insertPath read path) (fun h => hf ▸ h) ?_ fun p hp hp' => ?_
  · cases read with
    | true =>
      simp only [Shown, hpc, RecordState.move, Function.update_self, insertPath, if_true,
        Finset.mem_insert, List.mem_cons] at hsh ⊢
      intro p hp
      rcases hsh p hp with hm | hm | hm
      · exact .inl (.inr hm)
      · exact .inl (.inl hm)
      · exact .inr hm
    | false =>
      simp only [Shown, hpc, RecordState.move, Function.update_self, insertPath,
        Bool.false_eq_true, if_false, Finset.mem_insert, List.mem_cons] at hsh ⊢
      refine ⟨hsh.1, fun p hp => ?_⟩
      rcases hsh.2 p hp with hm | hm | hm
      · exact .inl (.inr hm)
      · exact .inl (.inl hm)
      · exact .inr hm
  · by_cases hpp : p = path
    · refine .inr (.inr ⟨c, read, rest, ?_⟩)
      rw [hpp]
      exact Function.update_self ..
    · have hold : p ∈ s.moduleReads ∧ p ∈ s.moduleWrites := by
        cases read
        · exact ⟨hp, (Finset.mem_insert.mp hp').resolve_left hpp⟩
        · exact ⟨(Finset.mem_insert.mp hp).resolve_left hpp, hp'⟩
      refine (h.noticed p hold.1 hold.2).move (s.pc_insertPath read path) (fun h => hf ▸ h) ?_ ?_
      · rw [hpc]
        exact fun h => by cases h
      · rw [hpc]
        exact fun _ _ h => by cases h

/-- The look: either the race is noticed by this call, or the path it has shown is not in the
other set. -/
theorem raceInvariant_look (h : RaceInvariant modulePath calls s) {read : Bool} {path : A}
    {rest : List A} (hpc : s.pc c = .checking read path rest) :
    RaceInvariant modulePath calls
      (s.move c (if path ∈ s.checkedSet read then .flagging else .appending read rest)) := by
  have hsh := h.shown c
  split
  case isTrue hm =>
    refine h.move rfl subset_rfl subset_rfl id ?_ fun p _ _ => ?_
    · simp [Shown, RecordState.move]
    · exact .inr (.inl ⟨c, Function.update_self ..⟩)
  case isFalse hm =>
    refine h.move rfl subset_rfl subset_rfl id ?_ fun p hp hp' => ?_
    · cases read <;> simpa only [Shown, hpc, RecordState.move, Function.update_self] using hsh
    · have hpp : p ≠ path := by
        rintro rfl
        cases read
        · exact hm hp
        · exact hm hp'
      refine (h.noticed p hp hp').move rfl id ?_ ?_
      · rw [hpc]
        exact fun h => by cases h
      · rw [hpc]
        exact fun _ _ h => hpp (by cases h; rfl)

omit [DecidableEq C] [DecidableEq A] in
theorem raceInvariant_new : RaceInvariant modulePath calls (new : RecordState C K P E A) where
  shown _ := trivial
  noticed p hp := absurd hp (Finset.notMem_empty p)

theorem raceInvariant_step {l : C × Bool} (h : RaceInvariant modulePath calls s)
    (hstep : step modulePath calls l s = some t) : RaceInvariant modulePath calls t := by
  obtain ⟨c, stale⟩ := l
  have hsh := h.shown c
  cases hpc : s.pc c with
  | start =>
    simp only [step, hpc] at hstep
    split at hstep
    case isTrue hf =>
      cases hstep
      refine h.quiet rfl rfl rfl rfl (by simp [hpc]) (by simp [hpc]) ?_
      simp only [Shown, RecordState.move, Function.update_self]
      exact .inl (Bool.and_eq_true_iff.mp hf).1
    case isFalse =>
      cases hstep
      refine h.quiet rfl rfl rfl rfl (by simp [hpc]) (by simp [hpc]) ?_
      simp only [Shown, RecordState.move, Function.update_self]
      exact fun p hp => .inr hp
  | appending read paths =>
    cases paths with
    | cons path rest =>
      simp only [step, hpc, Option.some.injEq] at hstep
      exact hstep ▸ raceInvariant_insert h hpc
    | nil =>
      cases read
      all_goals
        simp only [step, hpc, Option.some.injEq] at hstep
        subst hstep
        refine h.quiet rfl rfl rfl rfl (by simp [hpc]) (by simp [hpc]) ?_
        simp only [Shown, hpc, List.not_mem_nil, or_false] at hsh
        simp only [Shown, RecordState.move, Function.update_self]
      case true => exact ⟨hsh, fun p hp => .inr hp⟩
      case false => exact .inr hsh
  | checking read path rest =>
    simp only [step, hpc, ← apply_ite, Option.some.injEq] at hstep
    exact hstep ▸ raceInvariant_look h hpc
  | flagging =>
    simp only [step, hpc, Option.some.injEq] at hstep
    subst hstep
    refine h.move rfl subset_rfl subset_rfl (fun _ => rfl) ?_ fun _ _ _ => .inl rfl
    simp only [Shown, RecordState.move, Function.update_self]
    exact .inl trivial
  | storeInput =>
    simp only [step, hpc, Option.some.injEq] at hstep
    subst hstep
    refine h.quiet rfl rfl rfl rfl (by simp [hpc]) (by simp [hpc]) ?_
    simpa only [Shown, hpc, RecordState.move, Function.update_self] using hsh
  | storeOutput =>
    simp only [step, hpc, Option.some.injEq] at hstep
    subst hstep
    refine h.quiet rfl rfl rfl rfl (by simp [hpc]) (by simp [hpc]) ?_
    simpa only [Shown, hpc, RecordState.move, Function.update_self] using hsh
  | returned => simp only [step, hpc, reduceCtorEq] at hstep

theorem Reachable.raceInvariant (h : Reachable modulePath calls s) :
    RaceInvariant modulePath calls s :=
  InterleavedRuns.Reachable.invariant (I := RaceInvariant modulePath calls) raceInvariant_new
    (fun _ _ _ _ hs _ hstep => raceInvariant_step hs hstep) h

/-- Once all calls have returned, an unset flag means that no module was both read and written
by recorded executions, whatever the interleaving of their set operations was. -/
theorem Reachable.modules_disjoint (h : Reachable modulePath calls s)
    (hall : ∀ c, s.pc c = .returned) (hflag : s.modulePublishingMayRace = false) (reader writer : C)
    (path : A) (hread : path ∈ (calls reader).readModules modulePath) :
    path ∉ (calls writer).writtenModules modulePath := by
  intro hwrite
  have hinv := h.raceInvariant
  have hf : s.moduleReadWriteIntersection ≠ true := by
    simpa [modulePublishingMayRace] using hflag
  have hshown (c : C) : (∀ p ∈ (calls c).readModules modulePath, p ∈ s.moduleReads) ∧
      ∀ p ∈ (calls c).writtenModules modulePath, p ∈ s.moduleWrites := by
    have hc := hinv.shown c
    simp only [Shown, hall] at hc
    exact hc.resolve_left hf
  have hr : path ∈ s.moduleReads := (hshown reader).1 path hread
  have hw : path ∈ s.moduleWrites := (hshown writer).2 path hwrite
  rcases hinv.noticed path hr hw with hn | ⟨c, hn⟩ | ⟨c, _, _, hn⟩
  · exact hf hn
  · rw [hall c] at hn
    cases hn
  · rw [hall c] at hn
    cases hn

end Steps
end RecordState

/-- Two incarnations of a transaction are recorded; the second one reads one more module and
publishes another one. -/
def twoRecords (second : Bool) : RecordCall ℕ Unit Unit :=
  if second then
    ⟨4, [⟨3, .storage⟩, ⟨5, .storage⟩], .success (.ofWrite (some (8, .modification [1])) ())⟩
  else ⟨4, [⟨3, .storage⟩, ⟨14, .storage⟩], .success (.ofWrite (some (14, .modification [1])) ())⟩

/-- The keys of `twoRecords` that are modules. -/
def belowTen (k : ℕ) : Option ℕ := if k < 10 then some k else none

/-- The two calls take turns on the sets. -/
theorem modules_disjoint_twoRecords : ∃ s : RecordState Bool ℕ Unit Unit ℕ,
    RecordState.Reachable belowTen twoRecords s ∧ s.moduleReads = {3, 5} ∧ s.moduleWrites = {8} ∧
    3 ∉ (twoRecords true).writtenModules belowTen := by
  obtain ⟨s, hs, h⟩ := Option.map_eq_some_iff.mp (show
    (InterleavedRuns.follow (RecordState.step belowTen twoRecords)
      ((List.replicate 7 [(true, false), (false, true)]).flatten ++
        List.replicate 4 (true, false)) RecordState.new).map
      (fun s : RecordState Bool ℕ Unit Unit ℕ => decide (s.moduleReads = {3, 5} ∧
        s.moduleWrites = {8} ∧ (∀ c, s.pc c = .returned) ∧
        s.modulePublishingMayRace = false)) = some true by decide +kernel)
  obtain ⟨hreads, hwrites, hall, hflag⟩ := of_decide_eq_true h
  have hreach := InterleavedRuns.Reachable.start.follow _ (InterleavedRuns.guarded_anyStep _ _) hs
  exact ⟨s, hreach, hreads, hwrites,
    RecordState.Reachable.modules_disjoint hreach hall hflag false true 3 (by decide)⟩

end Anthemius

import Anthemius.InterleavedRuns
import Anthemius.ProofQueues
import Mathlib.Data.List.Perm.Subperm

/-!
# Runs of the queue of proofs

The queue and the map are related to the calls made so far. What a pull returns follows from the
pushes and the commits before it, as long as no push extends the expiration of a digest that is
still in the queue.
-/
namespace Anthemius.QuorumStore

variable {D S : Type}

namespace QueueCall

/-- The time at which a call is made, for the calls that name one. -/
def time : QueueCall D S → Option LogicalTime
  | .push _ _ | .markCommitted _ => none
  | .pullProofs _ now _ _ | .cleanLocalProofs now => some now

def proof : QueueCall D S → Option (ProofOfStore D S)
  | .push proof _ => some proof
  | .markCommitted _ | .pullProofs _ _ _ _ | .cleanLocalProofs _ => none

end QueueCall

section Calls
variable (calls : List (QueueCall D S))

/-- No call is later. -/
def Timely (now : LogicalTime) : Prop := ∀ t ∈ calls.filterMap QueueCall.time, t ≤ now

def pushes : List (ProofOfStore D S) := calls.filterMap QueueCall.proof

/-- The digest is pushed with an expiration at the time or later. -/
def PushedUntil (digest : D) (now : LogicalTime) : Prop :=
  ∃ proof ∈ pushes calls, proof.digest = digest ∧ now ≤ proof.expiration

def Committed (digest : D) : Prop := ∃ digests, .markCommitted digests ∈ calls ∧ digest ∈ digests

/-- The digest is committed after it was pushed with an expiration at the time or later. -/
def CommittedWithin (digest : D) (now : LogicalTime) : Prop :=
  ∃ before digests after, calls = before ++ .markCommitted digests :: after ∧ digest ∈ digests ∧
    PushedUntil before digest now

end Calls

/-- Calls at times that do not decrease, each one met by the guard. -/
inductive Run [DecidableEq D] (guard : ProofQueue D S → QueueCall D S → Prop) :
    List (QueueCall D S) → ProofQueue D S → Prop
  | new : Run guard [] .new
  | call {calls : List (QueueCall D S)} {q q' : ProofQueue D S} {call : QueueCall D S}
    (hrun : Run guard calls q) (htime : ∀ now ∈ call.time, Timely calls now)
    (hguard : guard q call) (hcall : q.perform call = .ok q') : Run guard (calls ++ [call]) q'

/-- The calls that do not extend the expiration of a digest in the queue. -/
def KeepsExpiration (q : ProofQueue D S) : QueueCall D S → Prop
  | .push proof _ => ∀ expiration, (proof.digest, expiration) ∈ q.digestQueue →
      proof.expiration ≤ expiration
  | .markCommitted _ | .pullProofs _ _ _ _ | .cleanLocalProofs _ => True

/-- The calls that commit only digests in the queue. -/
def CommitsQueued (q : ProofQueue D S) : QueueCall D S → Prop
  | .markCommitted digests => ∀ digest ∈ digests, digest ∈ q.digestQueue.map Prod.fst
  | .push _ _ | .pullProofs _ _ _ _ | .cleanLocalProofs _ => True

/-! ## What the calls leave -/

section Last
variable {calls : List (QueueCall D S)} {call : QueueCall D S}

theorem mem_pushes_concat {proof : ProofOfStore D S} :
    proof ∈ pushes (calls ++ [call]) ↔ proof ∈ pushes calls ∨ call.proof = some proof := by
  simp [pushes, List.filterMap_append, List.mem_filterMap]

theorem Timely.of_concat {now : LogicalTime} (h : Timely (calls ++ [call]) now) :
    Timely calls now := by
  intro t ht
  exact h t (by rw [List.filterMap_append]; exact List.mem_append_left _ ht)

theorem Timely.le_last {now t : LogicalTime} (h : Timely (calls ++ [call]) now)
    (ht : call.time = some t) : t ≤ now :=
  h t (by simp [List.filterMap_append, ht])

theorem PushedUntil.of_concat {digest : D} {now : LogicalTime}
    (h : PushedUntil (calls ++ [call]) digest now) :
    PushedUntil calls digest now ∨
      ∃ proof, call.proof = some proof ∧ proof.digest = digest ∧ now ≤ proof.expiration := by
  obtain ⟨proof, hproof, hrest⟩ := h
  obtain hproof | hproof := mem_pushes_concat.mp hproof
  · exact Or.inl ⟨proof, hproof, hrest⟩
  · exact Or.inr ⟨proof, hproof, hrest⟩

theorem Committed.concat {digest : D} (h : Committed calls digest) :
    Committed (calls ++ [call]) digest := by
  obtain ⟨digests, hin, hdigest⟩ := h
  exact ⟨digests, List.mem_append_left _ hin, hdigest⟩

theorem CommittedWithin.pushedUntil {digest : D} {now : LogicalTime}
    (h : CommittedWithin calls digest now) : PushedUntil calls digest now := by
  obtain ⟨before, digests, after, rfl, -, proof, hproof, hrest⟩ := h
  refine ⟨proof, ?_, hrest⟩
  rw [pushes, List.filterMap_append]
  exact List.mem_append_left _ hproof

theorem CommittedWithin.of_concat {digest : D} {now : LogicalTime}
    (h : CommittedWithin (calls ++ [call]) digest now) :
    CommittedWithin calls digest now ∨ ∃ digests, call = .markCommitted digests ∧
      digest ∈ digests := by
  obtain ⟨before, digests, after, heq, hdigest, hpushed⟩ := h
  obtain ⟨-, hlast, -⟩ | ⟨after', rfl⟩ := InterleavedRuns.split_concat heq
  · exact Or.inr ⟨digests, hlast.symm, hdigest⟩
  · exact Or.inl ⟨before, digests, after', rfl, hdigest, hpushed⟩

end Last

namespace ProofQueue
variable [DecidableEq D] {q q' : ProofQueue D S} {calls : List (QueueCall D S)}

/-- What is in the queue and in the map comes from the calls. -/
structure Recorded (calls : List (QueueCall D S)) (q : ProofQueue D S) : Prop where
  proofs : ∀ digest proof, q.digestProof digest = some (some proof) → proof ∈ pushes calls
  entries : ∀ entry ∈ q.digestQueue, ∃ proof ∈ pushes calls, proof.expiration = entry.2
  committed : ∀ digest, q.digestProof digest = some none → Committed calls digest

theorem Recorded.after (h : q.Recorded calls) {call : QueueCall D S}
    (hcall : q.Performs call q') : q'.Recorded (calls ++ [call]) := by
  have hold : ∀ proof ∈ pushes calls, proof ∈ pushes (calls ++ [call]) :=
    fun proof hproof => mem_pushes_concat.mpr (Or.inl hproof)
  have hentries : ∀ entry ∈ q.digestQueue,
      ∃ proof ∈ pushes (calls ++ [call]), proof.expiration = entry.2 := by
    intro entry hentry
    obtain ⟨proof, hproof, heq⟩ := h.entries entry hentry
    exact ⟨proof, hold proof hproof, heq⟩
  cases hcall with
  | push proof isLocal =>
    have hlast : proof ∈ pushes (calls ++ [.push proof isLocal]) :=
      mem_pushes_concat.mpr (Or.inr rfl)
    refine ⟨fun digest found hfound => ?_, fun entry hentry => ?_, fun digest hnone => ?_⟩
    · obtain hmap | ⟨-, -, hmap⟩ := q.push_digestProof proof isLocal digest
      · exact hold found (h.proofs digest found (hmap ▸ hfound))
      · rw [hmap] at hfound
        cases hfound
        exact hlast
    · obtain hentry | ⟨-, rfl⟩ := mem_of_mem_push hentry
      · exact hentries entry hentry
      · exact ⟨proof, hlast, rfl⟩
    · obtain hmap | ⟨-, -, hmap⟩ := q.push_digestProof proof isLocal digest
      · exact (h.committed digest (hmap ▸ hnone)).concat
      · rw [hmap] at hnone
        cases hnone
  | markCommitted digests =>
    refine ⟨fun digest found hfound => ?_, hentries, fun digest hnone => ?_⟩
    · rw [markCommitted_digestProof] at hfound
      split at hfound
      · cases hfound
      · exact hold found (h.proofs digest found hfound)
    · rw [markCommitted_digestProof] at hnone
      split at hnone
      next hin => exact ⟨digests, List.mem_append_right _ (List.mem_singleton_self _), hin⟩
      next => exact (h.committed digest hnone).concat
  | pullProofs excluded now maxTxns maxBytes =>
    refine ⟨fun digest found hfound => ?_, fun entry hentry => ?_, fun digest hnone => ?_⟩
    · exact hold found (h.proofs digest found (dropExpired_digestProof_some hfound))
    · exact hentries entry (mem_of_mem_dropExpired hentry)
    · exact (h.committed digest (dropExpired_digestProof_some hnone)).concat
  | cleanLocalProofs now queue =>
    exact ⟨fun digest found hfound => hold found (h.proofs digest found hfound), hentries,
      fun digest hnone => (h.committed digest hnone).concat⟩

/-- Digests whose pushes have not all expired. -/
structure Live (calls : List (QueueCall D S)) (q : ProofQueue D S) : Prop where
  pushed : ∀ now, Timely calls now → ∀ digest, PushedUntil calls digest now →
    q.digestProof digest ≠ none ∧
      ∀ expiration, (digest, expiration) ∈ q.digestQueue → now ≤ expiration
  committed : ∀ now, Timely calls now → ∀ digest, CommittedWithin calls digest now →
    q.digestProof digest = some none

theorem Live.dropExpired_digestProof (h : q.Live calls) {now t : LogicalTime} {digest : D}
    (htimely : Timely calls now) (hle : t ≤ now) (hpushed : PushedUntil calls digest now) :
    (q.dropExpired t).digestProof digest = q.digestProof digest := by
  refine if_neg ?_
  rw [List.mem_map]
  rintro ⟨⟨digest, expiration⟩, hexpired, rfl⟩
  have hlate := (h.pushed now htimely digest hpushed).2 expiration (mem_of_mem_expired hexpired)
  exact absurd (lt_of_mem_expired hexpired) (not_lt.mpr (hle.trans hlate))

theorem Live.after (h : q.Live calls) {call : QueueCall D S} (hguard : KeepsExpiration q call)
    (hcall : q.Performs call q') : q'.Live (calls ++ [call]) := by
  refine ⟨fun now htimely digest hpushed => ?_, fun now htimely digest hcommitted => ?_⟩
  · obtain hold | ⟨proof, hproof, rfl, hle⟩ := hpushed.of_concat
    · obtain ⟨hsome, hqueue⟩ := h.pushed now htimely.of_concat digest hold
      cases hcall with
      | push proof isLocal =>
        refine ⟨?_, fun expiration hin => ?_⟩
        · obtain hmap | ⟨-, -, hmap⟩ := q.push_digestProof proof isLocal digest
          · rwa [hmap]
          · rw [hmap]
            exact Option.some_ne_none _
        · obtain hin | ⟨hnone, heq⟩ := mem_of_mem_push hin
          · exact hqueue expiration hin
          · cases heq
            exact absurd hnone hsome
      | markCommitted digests =>
        refine ⟨?_, hqueue⟩
        rw [markCommitted_digestProof]
        split
        · exact Option.some_ne_none _
        · exact hsome
      | pullProofs excluded t maxTxns maxBytes =>
        refine ⟨?_, fun expiration hin => hqueue expiration (mem_of_mem_dropExpired hin)⟩
        rwa [h.dropExpired_digestProof htimely.of_concat (htimely.le_last rfl) hold]
      | cleanLocalProofs t queue => exact ⟨hsome, hqueue⟩
    -- The last call is a push, and the guard compares it with the entry of its digest.
    · cases hcall with
      | push proof' isLocal =>
        cases hproof
        refine ⟨q.push_ne_none proof isLocal, fun expiration hin => hle.trans ?_⟩
        obtain hin | ⟨-, heq⟩ := mem_of_mem_push hin
        · exact hguard expiration hin
        · cases heq
          exact le_rfl
      | markCommitted digests => cases hproof
      | pullProofs excluded t maxTxns maxBytes => cases hproof
      | cleanLocalProofs t queue => cases hproof
  · obtain hold | ⟨digests, rfl, hdigest⟩ := hcommitted.of_concat
    · have hnone := h.committed now htimely.of_concat digest hold
      cases hcall with
      | push proof isLocal =>
        obtain hmap | ⟨-, hne, -⟩ := q.push_digestProof proof isLocal digest
        · rwa [hmap]
        · exact absurd hnone hne
      | markCommitted digests =>
        rw [markCommitted_digestProof, hnone, ite_self]
      | pullProofs excluded t maxTxns maxBytes =>
        rwa [h.dropExpired_digestProof htimely.of_concat (htimely.le_last rfl) hold.pushedUntil]
      | cleanLocalProofs t queue => exact hnone
    · cases hcall
      rw [markCommitted_digestProof, if_pos hdigest]

/-- Every digest of the map is in the queue. -/
def Queued (q : ProofQueue D S) : Prop :=
  ∀ digest, q.digestProof digest ≠ none → digest ∈ q.digestQueue.map Prod.fst

theorem Queued.after (h : q.Queued) {call : QueueCall D S} (hguard : CommitsQueued q call)
    (hcall : q.Performs call q') : q'.Queued := by
  intro digest hsome
  cases hcall with
  | push proof isLocal =>
    obtain ⟨-, hqueue, hmap⟩ | ⟨old, hold, -, hqueue, hmap⟩ | ⟨-, hqueue, hmap⟩ :=
      q.push_cases proof isLocal
    · rw [hqueue, List.map_append]
      by_cases heq : digest = proof.digest
      · exact List.mem_append_right _ (List.mem_singleton.mpr heq)
      · rw [hmap, Function.update_of_ne heq] at hsome
        exact List.mem_append_left _ (h digest hsome)
    · rw [hqueue]
      by_cases heq : digest = proof.digest
      · exact h digest (by simp [heq, hold])
      · rw [hmap, Function.update_of_ne heq] at hsome
        exact h digest hsome
    · rw [hqueue]
      exact h digest (hmap ▸ hsome)
  | markCommitted digests =>
    rw [markCommitted_digestProof] at hsome
    split at hsome
    next hin => exact hguard digest hin
    next => exact h digest hsome
  | pullProofs excluded t maxTxns maxBytes =>
    obtain ⟨value, hvalue⟩ := Option.ne_none_iff_exists'.mp hsome
    have hin := h digest (by simp [dropExpired_digestProof_some hvalue])
    rw [← q.expired_append t, List.map_append] at hin
    refine (List.mem_append.mp hin).resolve_left fun hexpired => hsome ?_
    exact if_pos hexpired
  | cleanLocalProofs t queue => exact h digest hsome

/-! ## The sums -/

/-- The proofs that a pull may return are pushed ones, each at most once. -/
theorem Recorded.pending_subperm (h : q.Recorded calls) (hq : q.Coherent) (excluded : List D)
    (now : LogicalTime) :
    (pending q.digestProof excluded now q.digestQueue).Subperm (pushes calls) := by
  have hnodup := List.Nodup.of_map _ (hq.nodup_pending excluded now)
  refine hnodup.subperm fun proof hproof => ?_
  exact h.proofs _ proof (hq.mem_pending.mp hproof).1

omit [DecidableEq D] in
theorem totals_le_of_subperm {proofs proofs' : List (ProofOfStore D S)}
    (h : proofs.Subperm proofs') :
    totalTxns proofs ≤ totalTxns proofs' ∧ totalBytes proofs ≤ totalBytes proofs' := by
  obtain ⟨middle, hperm, hsub⟩ := h
  have htxns : totalTxns proofs = totalTxns middle := ((hperm.map _).sum_eq).symm
  have hbytes : totalBytes proofs = totalBytes middle := ((hperm.map _).sum_eq).symm
  rw [htxns, hbytes]
  exact ⟨(hsub.map _).sum_le_sum fun _ _ => Nat.zero_le _,
    (hsub.map _).sum_le_sum fun _ _ => Nat.zero_le _⟩

end ProofQueue

namespace Run
variable [DecidableEq D] {guard : ProofQueue D S → QueueCall D S → Prop}
  {calls : List (QueueCall D S)} {q : ProofQueue D S}

theorem mono {guard' : ProofQueue D S → QueueCall D S → Prop} (h : Run guard calls q)
    (hmono : ∀ q call, guard q call → guard' q call) : Run guard' calls q := by
  induction h with
  | new => exact .new
  | call hrun htime hguard hcall ih => exact .call ih htime (hmono _ _ hguard) hcall

theorem coherent (h : Run guard calls q) : q.Coherent := by
  induction h with
  | new => exact ProofQueue.Coherent.new
  | call hrun htime hguard hcall ih => exact ih.after (ih.performs hcall)

theorem recorded (h : Run guard calls q) : q.Recorded calls := by
  induction h with
  | new => exact ⟨fun _ _ h => (by cases h), fun _ h => (by cases h), fun _ h => (by cases h)⟩
  | call hrun htime hguard hcall ih => exact ih.after (hrun.coherent.performs hcall)

theorem live (h : Run KeepsExpiration calls q) : q.Live calls := by
  induction h with
  | new =>
    refine ⟨fun now _ digest hpushed => ?_, fun now _ digest hcommitted => ?_⟩
    · obtain ⟨proof, hproof, -⟩ := hpushed
      cases hproof
    · obtain ⟨proof, hproof, -⟩ := hcommitted.pushedUntil
      cases hproof
  | call hrun htime hguard hcall ih => exact ih.after hguard (hrun.coherent.performs hcall)

theorem queued (h : Run CommitsQueued calls q) : q.Queued := by
  induction h with
  | new => exact fun digest hsome => absurd rfl hsome
  | call hrun htime hguard hcall ih => exact ih.after hguard (hrun.coherent.performs hcall)

end Run

/-! ## Pulls -/

/-- Distinct proofs that have not expired, within the limits of a pull. -/
structure Selects (excluded : List D) (now : LogicalTime) (maxTxns maxBytes : ℕ)
    (ret : List (ProofOfStore D S)) : Prop where
  distinct : (ret.map ProofOfStore.digest).Nodup
  unexpired : ∀ proof ∈ ret, now ≤ proof.expiration
  included : ∀ proof ∈ ret, proof.digest ∉ excluded
  txns : ProofQueue.totalTxns ret ≤ maxTxns
  bytes : ProofQueue.totalBytes ret ≤ maxBytes

namespace Run
variable [DecidableEq D] {guard : ProofQueue D S → QueueCall D S → Prop}
  {calls : List (QueueCall D S)} {q q' : ProofQueue D S} {excluded : List D} {now : LogicalTime}
  {maxTxns maxBytes : ℕ} {ret : List (ProofOfStore D S)}

theorem perform_error (h : Run guard calls q) {call : QueueCall D S} {panic : Panic}
    (hcall : q.perform call = .error panic) :
    panic = .overflow ∧ (2 ^ 64 ≤ ProofQueue.totalTxns (pushes calls) ∨
      2 ^ 64 ≤ ProofQueue.totalBytes (pushes calls)) := by
  cases call with
  | push proof isLocal => cases hcall
  | markCommitted digests => cases hcall
  | pullProofs excluded now maxTxns maxBytes =>
    rcases hpull : q.pullProofs excluded now maxTxns maxBytes with panic' | ⟨next, ret⟩
    · rw [ProofQueue.perform, hpull] at hcall
      cases hcall
      obtain ⟨rfl, hover⟩ := h.coherent.pull_error hpull
      have hdrop : (q.dropExpired now).Recorded (calls ++ [.pullProofs excluded now 0 0]) :=
        h.recorded.after (.pullProofs excluded now 0 0)
      have hpushes : pushes (calls ++ [.pullProofs excluded now 0 0]) = pushes calls := by
        rw [pushes, List.filterMap_append]
        exact List.append_nil _
      have hle := ProofQueue.totals_le_of_subperm
        (hdrop.pending_subperm (h.coherent.dropExpired now) excluded now)
      rw [hpushes] at hle
      exact ⟨rfl, hover.imp (fun htxns => htxns.trans hle.1) fun hbytes => hbytes.trans hle.2⟩
    · rw [ProofQueue.perform, hpull] at hcall
      cases hcall
  | cleanLocalProofs now => cases hcall

theorem selects (h : Run guard calls q)
    (hpull : q.pullProofs excluded now maxTxns maxBytes = .ok (q', ret)) :
    Selects excluded now maxTxns maxBytes ret := by
  obtain ⟨rfl, htxns, hbytes, rest, hpending, -⟩ := h.coherent.pull_ok hpull
  have hq := h.coherent.dropExpired now
  have hnodup := hq.nodup_pending excluded now
  rw [hpending, List.map_append] at hnodup
  have hret : ∀ proof ∈ ret, _ := fun proof hproof =>
    (@ProofQueue.Coherent.mem_pending _ _ _ _ excluded now hq proof).mp
      (hpending ▸ List.mem_append_left rest hproof)
  refine ⟨(List.nodup_append.mp hnodup).1, fun proof hproof => ?_,
    fun proof hproof => (hret proof hproof).2.1, htxns, hbytes⟩
  obtain ⟨hsome, -, expiration, hle, hin⟩ := hret proof hproof
  -- The entry of a digest is the only one, and the proof expires no earlier.
  obtain ⟨-, expiration', hle', hin'⟩ := hq.queued _ proof hsome
  have heq := List.inj_on_of_nodup_map hq.nodup hin hin' rfl
  cases heq
  exact hle.trans hle'

theorem notMem_of_committedWithin (h : Run KeepsExpiration calls q) (htimely : Timely calls now)
    (hpull : q.pullProofs excluded now maxTxns maxBytes = .ok (q', ret)) {digest : D}
    (hcommitted : CommittedWithin calls digest now) : digest ∉ ret.map ProofOfStore.digest := by
  obtain ⟨rfl, -, -, rest, hpending, -⟩ := h.coherent.pull_ok hpull
  have hq := h.coherent.dropExpired now
  have hnone : (q.dropExpired now).digestProof digest = some none := by
    rw [h.live.dropExpired_digestProof htimely le_rfl hcommitted.pushedUntil]
    exact h.live.committed now htimely digest hcommitted
  rw [List.mem_map]
  rintro ⟨proof, hproof, rfl⟩
  have hin := List.mem_append_left rest hproof
  rw [← hpending] at hin
  rw [(hq.mem_pending.mp hin).1] at hnone
  cases hnone

theorem mem_of_pushedUntil (h : Run KeepsExpiration calls q) (htimely : Timely calls now)
    (hpull : q.pullProofs excluded now (2 ^ 64 - 1) (2 ^ 64 - 1) = .ok (q', ret)) {digest : D}
    (hpushed : PushedUntil calls digest now) (hcommitted : ¬ Committed calls digest)
    (hexcluded : digest ∉ excluded) : digest ∈ ret.map ProofOfStore.digest := by
  obtain ⟨rfl, -, -, rest, hpending, hall⟩ := h.coherent.pull_ok hpull
  have hq := h.coherent.dropExpired now
  have hkept := h.live.dropExpired_digestProof htimely le_rfl hpushed
  obtain ⟨hsome, hlate⟩ := h.live.pushed now htimely digest hpushed
  rw [hall rfl rfl, List.append_nil] at hpending
  rcases hproof : q.digestProof digest with _ | _ | proof
  · exact absurd hproof hsome
  · exact absurd (h.recorded.committed digest hproof) hcommitted
  · rw [hproof] at hkept
    obtain ⟨rfl, expiration, -, hin⟩ := hq.queued digest proof hkept
    refine List.mem_map_of_mem ?_
    rw [← hpending, hq.mem_pending]
    exact ⟨hkept, hexcluded, expiration, hlate expiration (ProofQueue.mem_of_mem_dropExpired hin),
      hin⟩

theorem digestProof_eq_none (h : Run CommitsQueued calls q)
    (hpull : q.pullProofs excluded now maxTxns maxBytes = .ok (q', ret))
    (hexpired : ∀ proof ∈ pushes calls, proof.expiration < now) (digest : D) :
    q'.digestProof digest = none := by
  obtain ⟨rfl, -⟩ := h.coherent.pull_ok hpull
  have hall : q.expired now = q.digestQueue := by
    refine List.takeWhile_eq_self_iff.mpr fun entry hentry => ?_
    obtain ⟨proof, hproof, heq⟩ := h.recorded.entries entry hentry
    exact decide_eq_true (heq ▸ hexpired proof hproof)
  by_cases hin : digest ∈ q.digestQueue.map Prod.fst
  · exact if_pos (hall ▸ hin)
  · have hnone : q.digestProof digest = none := by
      by_contra hsome
      exact hin (h.queued digest hsome)
    exact (if_neg (hall ▸ hin)).trans hnone

end Run

/-- No call finds a digest of the queue without its entry in the map, and every pull returns
distinct, unexpired proofs within its limits. As long as no push extends the expiration of a
digest in the queue, a pull returns no digest that was committed while it could still be pulled,
and without limits all that were not. As long as only digests in the queue are committed, the
map holds no others, and a pull after all expirations empties it. -/
theorem proof_queue_exact [DecidableEq D] (calls : List (QueueCall D S)) (q : ProofQueue D S)
    (excluded : List D) (now : LogicalTime) (maxTxns maxBytes : ℕ) :
    (∀ guard, Run guard calls q →
      (∀ call, q.perform call ≠ .error .missingEntry) ∧
      (ProofQueue.totalTxns (pushes calls) < 2 ^ 64 →
        ProofQueue.totalBytes (pushes calls) < 2 ^ 64 → ∀ call, ∃ q', q.perform call = .ok q') ∧
      ∀ q' ret, q.pullProofs excluded now maxTxns maxBytes = .ok (q', ret) →
        Selects excluded now maxTxns maxBytes ret) ∧
    (Run KeepsExpiration calls q → Timely calls now →
      ∀ q' ret, q.pullProofs excluded now maxTxns maxBytes = .ok (q', ret) →
        (∀ digest, CommittedWithin calls digest now → digest ∉ ret.map ProofOfStore.digest) ∧
        (maxTxns = 2 ^ 64 - 1 → maxBytes = 2 ^ 64 - 1 → ∀ digest, PushedUntil calls digest now →
          ¬ Committed calls digest → digest ∉ excluded →
            digest ∈ ret.map ProofOfStore.digest)) ∧
    (Run CommitsQueued calls q →
      (∀ digest, q.digestProof digest ≠ none → digest ∈ q.digestQueue.map Prod.fst) ∧
      ∀ q' ret, q.pullProofs excluded now maxTxns maxBytes = .ok (q', ret) →
        (∀ proof ∈ pushes calls, proof.expiration < now) →
          ∀ digest, q'.digestProof digest = none) := by
  refine ⟨fun guard h => ⟨fun call hcall => ?_, fun htxns hbytes call => ?_,
    fun q' ret hpull => h.selects hpull⟩, fun h htimely q' ret hpull => ⟨fun digest hcommitted =>
      h.notMem_of_committedWithin htimely hpull hcommitted, ?_⟩,
    fun h => ⟨h.queued, fun q' ret hpull hexpired => h.digestProof_eq_none hpull hexpired⟩⟩
  · cases (h.perform_error hcall).1
  · rcases hcall : q.perform call with panic | q'
    · obtain ⟨-, hover | hover⟩ := h.perform_error hcall
      · exact absurd htxns (Nat.not_lt.mpr hover)
      · exact absurd hbytes (Nat.not_lt.mpr hover)
    · exact ⟨q', rfl⟩
  · rintro rfl rfl digest hpushed hcommitted hexcluded
    exact h.mem_of_pushedUntil htimely hpull hpushed hcommitted hexcluded

/-- A proof of one transaction of one byte. -/
def sampleProof (digest round : ℕ) : ProofOfStore ℕ Unit :=
  ⟨⟨digest, ⟨0, round⟩, 1, 1⟩, ()⟩

def sampleCalls : List (QueueCall ℕ Unit) :=
  [.push (sampleProof 1 5) false, .push (sampleProof 2 9) true, .markCommitted [1]]

def sampleQueue : ProofQueue ℕ Unit :=
  ((ProofQueue.new.push (sampleProof 1 5) false).push (sampleProof 2 9) true).markCommitted [1]

theorem run_sampleQueue :
    Run (fun q call => KeepsExpiration q call ∧ CommitsQueued q call) sampleCalls sampleQueue := by
  have hone : KeepsExpiration .new (.push (sampleProof 1 5) false) := by
    simp [KeepsExpiration, ProofQueue.new]
  have htwo : KeepsExpiration (ProofQueue.new.push (sampleProof 1 5) false)
      (.push (sampleProof 2 9) true) := by
    simp [KeepsExpiration, ProofQueue.new, ProofQueue.push, ProofQueue.enqueue, sampleProof,
      ProofOfStore.digest]
  refine .call (.call (.call .new ?_ ⟨hone, trivial⟩ rfl) ?_ ⟨htwo, trivial⟩ rfl) ?_
    ⟨trivial, ?_⟩ rfl
  · simp [QueueCall.time]
  · simp [QueueCall.time]
  · simp [QueueCall.time]
  intro digest hdigest
  rw [List.mem_singleton.mp hdigest]
  decide

/-- Two digests are pushed and the first one is committed: a pull returns the second one. -/
theorem proof_queue_exact_two :
    ∃ q' ret, sampleQueue.pullProofs [] ⟨0, 4⟩ (2 ^ 64 - 1) (2 ^ 64 - 1) = .ok (q', ret) ∧
      Selects [] ⟨0, 4⟩ (2 ^ 64 - 1) (2 ^ 64 - 1) ret ∧
      1 ∉ ret.map ProofOfStore.digest ∧ 2 ∈ ret.map ProofOfStore.digest ∧
      ∀ digest, sampleQueue.digestProof digest ≠ none → digest ∈ [1, 2] := by
  obtain ⟨hany, hkeeps, hqueued⟩ := proof_queue_exact sampleCalls sampleQueue [] ⟨0, 4⟩
    (2 ^ 64 - 1) (2 ^ 64 - 1)
  have hpull : sampleQueue.pullProofs [] ⟨0, 4⟩ (2 ^ 64 - 1) (2 ^ 64 - 1) =
    .ok (sampleQueue, [sampleProof 2 9]) := by rfl
  have htimely : Timely sampleCalls ⟨0, 4⟩ := by simp [Timely, sampleCalls, QueueCall.time]
  obtain ⟨hcommitted, hpushed⟩ :=
    hkeeps (run_sampleQueue.mono fun _ _ h => h.1) htimely _ _ hpull
  refine ⟨_, _, hpull, (hany _ run_sampleQueue).2.2 _ _ hpull, hcommitted 1 ?_,
    hpushed rfl rfl 2 ?_ ?_ List.not_mem_nil, (hqueued (run_sampleQueue.mono fun _ _ h => h.2)).1⟩
  · exact ⟨[.push (sampleProof 1 5) false, .push (sampleProof 2 9) true], [1], [], rfl, by decide,
      sampleProof 1 5, by decide, rfl, by decide⟩
  · exact ⟨sampleProof 2 9, by decide, rfl, by decide⟩
  · rintro ⟨digests, hin, hdigest⟩
    simp only [sampleCalls, List.mem_cons, reduceCtorEq, false_or, List.not_mem_nil, or_false,
      QueueCall.markCommitted.injEq] at hin
    subst hin
    revert hdigest
    decide

def renewedCalls : List (QueueCall ℕ Unit) :=
  [.push (sampleProof 1 5) false, .push (sampleProof 1 10) false]

def repeatedCalls : List (QueueCall ℕ Unit) :=
  renewedCalls ++
    [.markCommitted [1], .pullProofs [] ⟨0, 7⟩ 9 9, .push (sampleProof 1 10) false]

/-- A digest is pushed again with a later expiration and then committed. Its entry in the queue
expires first, and after that a repeated proof brings the committed digest back. Without the
commit the digest is lost. A digest that is committed before it is pushed stays in the map. -/
theorem later_expiration_forgets_digest :
    (∃ q, Run (fun _ _ => True) repeatedCalls q ∧ CommittedWithin repeatedCalls 1 ⟨0, 8⟩ ∧
      (q.pullProofs [] ⟨0, 8⟩ 9 9).map Prod.snd = .ok [sampleProof 1 10]) ∧
    (∃ q, Run (fun _ _ => True) renewedCalls q ∧ PushedUntil renewedCalls 1 ⟨0, 7⟩ ∧
      (q.pullProofs [] ⟨0, 7⟩ (2 ^ 64 - 1) (2 ^ 64 - 1)).map Prod.snd = .ok []) ∧
    ∃ q : ProofQueue ℕ Unit, Run (fun _ _ => True) [.markCommitted [1]] q ∧
      q.digestProof 1 ≠ none ∧ 1 ∉ q.digestQueue.map Prod.fst := by
  have hrenewed : Run (fun _ _ => True) renewedCalls _ :=
    .call (.call .new (by simp [QueueCall.time]) trivial rfl) (by simp [QueueCall.time]) trivial rfl
  have hrepeated : Run (fun _ _ => True) repeatedCalls _ :=
    .call (.call (.call hrenewed (by simp [QueueCall.time]) trivial rfl)
      (by simp [QueueCall.time, Timely, renewedCalls]) trivial rfl)
      (by simp [QueueCall.time]) trivial rfl
  have hcommitted : Run (fun _ _ => True) [QueueCall.markCommitted [1]] (_ : ProofQueue ℕ Unit) :=
    .call .new (by simp [QueueCall.time]) trivial rfl
  refine ⟨⟨_, hrepeated, ?_, rfl⟩, ⟨_, hrenewed, ?_, rfl⟩, ⟨_, hcommitted, ?_, ?_⟩⟩
  · exact ⟨renewedCalls, [1], _, rfl, by decide, sampleProof 1 10, by decide, rfl, by decide⟩
  · exact ⟨sampleProof 1 10, by decide, rfl, by decide⟩
  · decide
  · decide

end Anthemius.QuorumStore

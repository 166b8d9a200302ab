import Anthemius.BatchReaders
import Anthemius.InterleavedRuns

/-!
# The batch store

One task stores batches and answers requests from the database, in the order of a queue. Another
one clears expired batches from the cache and then asks for their deletion. Readers look up the
cache and ask for a payload that is not in memory. What every step leaves behind is said in terms
of the cache, the database and the deletions still to come.
-/
namespace Anthemius.QuorumStore

open EntryMaps InterleavedRuns

variable {D A P : Type} [DecidableEq D] [DecidableEq A]

inductive StoreCommand (D A P : Type)
  | persist (digest : D) (payload : P) (expiration : LogicalTime) (author : A) (numBytes : ℕ)
  | batchRequest (digest : D)
  | clean (digests : List D)

/-- The task of the store: between a command and the next one it has checked a batch, or has
cached it and not yet written it, or has stopped. -/
inductive Worker (D A P : Type)
  | idle
  | checked (digest : D) (value : PersistedValue A P)
  | cached (digest : D) (value : PersistedValue A P)
  | stopped (panic : Panic)
  | unreachable

/-- A batch that is being saved has its payload, and no request was without an answer. -/
def Worker.Sound {D A P : Type} : Worker D A P → Prop
  | .idle | .stopped _ => True
  | .checked _ value | .cached _ value => value.maybePayload.isSome
  | .unreachable => False

/-- The task of the certified rounds: it clears digests one by one and then asks for the deletion
of those that were cleared. -/
inductive Updater (D : Type)
  | idle
  | clearing (round : ℕ) (todo cleared : List D)

structure BatchStore (D A P : Type) where
  reader : BatchReader D A P
  db : D → Option (PersistedValue A P)
  queue : List (StoreCommand D A P)
  worker : Worker D A P
  updater : Updater D

inductive StoreLabel (D A P : Type)
  | send (digest : D) (payload : P) (expiration : LogicalTime) (author : A) (numBytes : ℕ)
  | getBatch (digest : D)
  | receive
  | updateCache
  | saveBatch
  | certify (certifiedTime : LogicalTime) (order : List D)
  | clear
  | sendClean

namespace BatchStore

/-- The first part of a save: the batch is cached next unless it is refused or known. -/
def check (s : BatchStore D A P) (digest : D) (value : PersistedValue A P) : Worker D A P :=
  if value.expiration.epoch = s.reader.epoch then
    match s.reader.inWindow value.expiration with
    | .error panic => .stopped panic
    | .ok inside =>
      if inside ∧ ¬ s.reader.alreadyHas digest value.expiration then .checked digest value
      else .idle
  else .stopped .assertion

/-- The payload of a request must be in the database. -/
def answer (s : BatchStore D A P) (digest : D) : Worker D A P :=
  match (s.db digest).bind PersistedValue.maybePayload with
  | some _ => .idle
  | none => .unreachable

def handle (s : BatchStore D A P) : StoreCommand D A P → BatchStore D A P
  | .persist digest payload expiration author numBytes =>
    { s with worker := s.check digest ⟨some payload, expiration, author, numBytes⟩ }
  | .batchRequest digest => { s with worker := s.answer digest }
  | .clean digests =>
    { s with db := fun digest => if digest ∈ digests then none else s.db digest }

/-- The second part of a save. -/
def insert (s : BatchStore D A P) (digest : D) (value : PersistedValue A P) : BatchStore D A P :=
  match s.reader.updateCache digest value with
  | .error panic => { s with worker := .stopped panic }
  | .ok (reader, .error _) => { s with reader := reader, worker := .idle }
  | .ok (reader, .ok _) => { s with reader := reader, worker := .cached digest value }

/-- The entry of the cache is held while the request is sent. -/
def getBatch (s : BatchStore D A P) (digest : D) : BatchStore D A P :=
  match get digest s.reader.dbCache with
  | none => s
  | some value =>
    match payloadStorageMode value with
    | .persistedOnly => { s with queue := s.queue ++ [.batchRequest digest] }
    | .memoryAndPersisted => s

/-- The steps of the tasks. -/
def step : StoreLabel D A P → BatchStore D A P → Option (BatchStore D A P)
  | .send digest payload expiration author numBytes, s =>
    some { s with queue := s.queue ++ [.persist digest payload expiration author numBytes] }
  | .getBatch digest, s => some (s.getBatch digest)
  | .receive, s =>
    match s.worker, s.queue with
    | .idle, command :: rest => some ({ s with queue := rest }.handle command)
    | _, _ => none
  | .updateCache, s =>
    match s.worker with
    | .checked digest value => some (s.insert digest value)
    | _ => none
  | .saveBatch, s =>
    match s.worker with
    | .cached digest value =>
      some { s with db := Function.update s.db digest (some value), worker := .idle }
    | _ => none
  | .certify certifiedTime order, s =>
    match s.updater with
    | .idle =>
      let round := s.reader.expiredRound certifiedTime
      if s.reader.epoch = certifiedTime.epoch ∧ s.reader.lastCertifiedRound ≤ certifiedTime.round ∧
          order.Perm (s.reader.expiredDigests round) then
        some { s with
          reader := { s.reader with
            lastCertifiedRound := certifiedTime.round
            expirations := s.reader.expirations.filter (round < ·.1) }
          updater := .clearing round order [] }
      else none
    | .clearing _ _ _ => none
  | .clear, s =>
    match s.updater with
    | .clearing round (digest :: todo) cleared =>
      match s.reader.clearDigest round digest with
      | .ok (reader, removed) =>
        some { s with
          reader := reader
          updater := .clearing round todo (if removed then cleared ++ [digest] else cleared) }
      | .error _ => none
    | _ => none
  | .sendClean, s =>
    match s.updater with
    | .clearing _ [] cleared =>
      some { s with queue := s.queue ++ [.clean cleared], updater := .idle }
    | _ => none

end BatchStore

/-! ## The cache under the steps -/

namespace BatchReader
variable {r r' : BatchReader D A P} {digest : D} {value : PersistedValue A P}

omit [DecidableEq D] in
theorem freeQuota_dbCache (h : r.freeQuota value = .ok r') : r'.dbCache = r.dbCache := by
  unfold freeQuota at h
  split at h
  · cases h
  · obtain ⟨quota, -, h⟩ := bind_eq_ok.mp h
    cases h
    rfl

theorem insertCache_dbCache {mode : StorageMode} (h : r.insertCache digest value mode = .ok r') :
    ∃ kept, r'.dbCache = set digest kept r.dbCache := by
  obtain ⟨r₁, hfree, h⟩ := bind_eq_ok.mp h
  cases h
  unfold freePrevious at hfree
  split at hfree
  · exact ⟨_, freeQuota_dbCache hfree⟩
  · cases hfree
    exact ⟨_, rfl⟩

theorem updateCache_dbCache {result : Except SaveError Unit}
    (h : r.updateCache digest value = .ok (r', result)) :
    (∃ kept, result = .ok () ∧ r'.dbCache = set digest kept r.dbCache) ∨
      ∃ err, result = .error err ∧ r'.dbCache = r.dbCache := by
  obtain ⟨fresh, -, h⟩ := bind_eq_ok.mp h
  obtain ⟨outcome, -, h⟩ := bind_eq_ok.mp h
  rcases outcome with err | ⟨quota, mode⟩
  · cases h
    exact Or.inr ⟨err, rfl, rfl⟩
  · obtain ⟨r₁, hinsert, h⟩ := bind_eq_ok.mp h
    cases h
    obtain ⟨kept, hkept⟩ := insertCache_dbCache hinsert
    exact Or.inl ⟨kept, rfl, hkept⟩

theorem clearDigest_dbCache {round : ℕ} {removed : Bool}
    (h : r.clearDigest round digest = .ok (r', removed)) :
    r'.dbCache = if removed then erase digest r.dbCache else r.dbCache := by
  unfold clearDigest at h
  split at h
  · cases h
  · split at h
    · obtain ⟨r₁, hfree, h⟩ := bind_eq_ok.mp h
      cases h
      exact freeQuota_dbCache hfree
    · cases h
      rfl

end BatchReader

namespace BatchStore

/-- The digests whose deletion is still to be asked for. -/
def cleared (s : BatchStore D A P) : List D :=
  match s.updater with
  | .idle => []
  | .clearing _ _ cleared => cleared

/-- The digest is deleted from the database later on. -/
def Deleting (s : BatchStore D A P) (digest : D) : Prop :=
  digest ∈ s.cleared ∨ ∃ digests, .clean digests ∈ s.queue ∧ digest ∈ digests

/-- The payload is in the database. -/
def Stored (s : BatchStore D A P) (digest : D) : Prop :=
  ∃ value, s.db digest = some value ∧ value.maybePayload.isSome

/-- The payload is in the database or is about to be written. -/
def Present (s : BatchStore D A P) (digest : D) : Prop :=
  s.Stored digest ∨ ∃ value, s.worker = .cached digest value

/-- No batch is cached while its digest is being deleted. -/
def InsertsKept (label : StoreLabel D A P) (s : BatchStore D A P) : Prop :=
  match label with
  | .updateCache => ∀ digest value, s.worker = .checked digest value → ¬ s.Deleting digest
  | _ => True

/-- What every step keeps as long as no batch is cached while its digest is being deleted. -/
structure Readable (s : BatchStore D A P) : Prop where
  cache : ∀ digest value, get digest s.reader.dbCache = some value →
    s.Present digest ∧ ¬ s.Deleting digest
  requests : ∀ before digest after, s.queue = before ++ .batchRequest digest :: after →
    s.Present digest ∧ ∀ digests, .clean digests ∈ before → digest ∉ digests
  worker : s.worker.Sound

variable {s s' : BatchStore D A P}

omit [DecidableEq A] in
theorem Readable.enqueue (h : s.Readable) {command : StoreCommand D A P}
    (hclean : ∀ digests, command = .clean digests → ∀ digest ∈ digests, s.Deleting digest)
    (hrequest : ∀ digest, command = .batchRequest digest → s.Present digest ∧
      ¬ s.Deleting digest) :
    { s with queue := s.queue ++ [command] }.Readable where
  cache := by
    intro digest value hvalue
    obtain ⟨hpresent, hkept⟩ := h.cache digest value hvalue
    refine ⟨hpresent, ?_⟩
    rintro (hcleared | ⟨digests, hin, hdigest⟩)
    · exact hkept (Or.inl hcleared)
    · obtain hin | hin := List.mem_append.mp hin
      · exact hkept (Or.inr ⟨digests, hin, hdigest⟩)
      · exact hkept (hclean digests (List.mem_singleton.mp hin).symm digest hdigest)
  requests := by
    intro before digest after heq
    obtain ⟨rfl, hlast, -⟩ | ⟨after', heq⟩ := split_concat heq
    · obtain ⟨hpresent, hkept⟩ := hrequest digest hlast.symm
      exact ⟨hpresent, fun digests hin hdigest => hkept (Or.inr ⟨digests, hin, hdigest⟩)⟩
    · exact h.requests before digest after' heq
  worker := h.worker

omit [DecidableEq A] in
theorem Readable.getBatch (h : s.Readable) (digest : D) : (s.getBatch digest).Readable := by
  unfold BatchStore.getBatch
  split
  · exact h
  next value hvalue =>
    split
    · refine h.enqueue (fun digests hclean => by cases hclean) fun other heq => ?_
      cases heq
      exact h.cache digest value hvalue
    · exact h

omit [DecidableEq A] in
theorem Readable.dequeue (h : s.Readable) {command : StoreCommand D A P}
    {rest : List (StoreCommand D A P)} (hqueue : s.queue = command :: rest) :
    { s with queue := rest }.Readable where
  cache := by
    intro digest value hvalue
    obtain ⟨hpresent, hkept⟩ := h.cache digest value hvalue
    refine ⟨hpresent, ?_⟩
    rintro (hcleared | ⟨digests, hin, hdigest⟩)
    · exact hkept (Or.inl hcleared)
    · exact hkept (Or.inr ⟨digests, hqueue ▸ List.mem_cons_of_mem _ hin, hdigest⟩)
  requests := by
    intro before digest after heq
    have hin : s.queue = (command :: before) ++ .batchRequest digest :: after := by
      rw [hqueue, List.cons_append]
      exact congrArg _ heq
    obtain ⟨hpresent, hkept⟩ := h.requests _ digest after hin
    exact ⟨hpresent, fun digests hclean => hkept digests (List.mem_cons_of_mem _ hclean)⟩
  worker := h.worker

omit [DecidableEq D] [DecidableEq A] in
theorem Present.stored {digest : D} (h : s.Present digest) (hidle : s.worker = .idle) :
    s.Stored digest := by
  obtain hstored | ⟨value, hvalue⟩ := h
  · exact hstored
  · rw [hidle] at hvalue
    cases hvalue

omit [DecidableEq A] in
/-- A step that leaves the queue alone. What it caches is present and not being deleted, and what
it clears is no longer cached. -/
theorem Readable.transfer (h : s.Readable) (hqueue : s'.queue = s.queue)
    (hpresent : ∀ digest, s.Present digest → s'.Present digest)
    (hcache : ∀ digest value, get digest s'.reader.dbCache = some value →
      get digest s.reader.dbCache ≠ none ∨ s'.Present digest ∧ ¬ s.Deleting digest)
    (hcleared : ∀ digest value, get digest s'.reader.dbCache = some value →
      digest ∈ s'.cleared → digest ∈ s.cleared)
    (hworker : s'.worker.Sound) : s'.Readable where
  cache := by
    intro digest value hvalue
    have hboth : s'.Present digest ∧ ¬ s.Deleting digest := by
      obtain hold | hnew := hcache digest value hvalue
      · obtain ⟨found, hfound⟩ := Option.ne_none_iff_exists'.mp hold
        exact (h.cache digest found hfound).imp_left (hpresent digest)
      · exact hnew
    refine ⟨hboth.1, ?_⟩
    rintro (hin | ⟨digests, hin, hdigest⟩)
    · exact hboth.2 (Or.inl (hcleared digest value hvalue hin))
    · exact hboth.2 (Or.inr ⟨digests, hqueue ▸ hin, hdigest⟩)
  requests := by
    intro before digest after heq
    exact (h.requests before digest after (hqueue ▸ heq)).imp_left (hpresent digest)
  worker := hworker

omit [DecidableEq A] in
/-- The worker leaves a state in which it writes nothing. -/
theorem Readable.setWorker (h : s.Readable)
    (hfree : ∀ digest value, s.worker ≠ .cached digest value) {worker : Worker D A P}
    (hworker : worker.Sound) : { s with worker := worker }.Readable := by
  refine h.transfer rfl ?_ ?_ ?_ hworker
  · rintro digest (hstored | ⟨value, hvalue⟩)
    · exact Or.inl hstored
    · exact absurd hvalue (hfree digest value)
  · exact fun digest value hvalue => Or.inl (Option.ne_none_iff_exists'.mpr ⟨value, hvalue⟩)
  · exact fun digest value _ hin => hin

omit [DecidableEq A] in
theorem sound_check (s : BatchStore D A P) (digest : D) {value : PersistedValue A P}
    (hpayload : value.maybePayload.isSome) : (s.check digest value).Sound := by
  unfold check
  split
  · split
    · trivial
    · split
      · exact hpayload
      · trivial
  · trivial

omit [DecidableEq A] in
theorem Readable.receive (h : s.Readable) (hidle : s.worker = .idle)
    {command : StoreCommand D A P} {rest : List (StoreCommand D A P)}
    (hqueue : s.queue = command :: rest) : ({ s with queue := rest }.handle command).Readable := by
  have hrest : { s with queue := rest }.Readable := h.dequeue hqueue
  cases command with
  | persist digest payload expiration author numBytes =>
    exact hrest.setWorker (fun _ _ hcached => by rw [hidle] at hcached; cases hcached)
      (sound_check _ digest rfl)
  -- A request finds its payload, since no deletion of it stands before the request.
  | batchRequest digest =>
    obtain ⟨value, hvalue, hpayload⟩ := (h.requests [] digest rest hqueue).1.stored hidle
    obtain ⟨payload, hpayload⟩ := Option.isSome_iff_exists.mp hpayload
    have hanswer : ({ s with queue := rest } : BatchStore D A P).answer digest = s.worker := by
      rw [answer, hidle]
      simp [hvalue, hpayload]
    rw [handle, hanswer]
    exact hrest
  | clean digests =>
    have hstored : ∀ digest, s.Present digest → digest ∉ digests →
        ({ s with queue := rest }.handle (.clean digests)).Present digest := by
      intro digest hpresent hkept
      obtain ⟨value, hvalue, hpayload⟩ := hpresent.stored hidle
      exact Or.inl ⟨value, (if_neg hkept).trans hvalue, hpayload⟩
    refine ⟨fun digest value hvalue => ?_, fun before digest after heq => ?_, h.worker⟩
    · obtain ⟨hpresent, hkept⟩ := h.cache digest value hvalue
      refine ⟨hstored digest hpresent fun hin => hkept (Or.inr ⟨digests, ?_, hin⟩),
        (hrest.cache digest value hvalue).2⟩
      exact hqueue ▸ List.mem_cons_self
    · have hin : s.queue = (.clean digests :: before) ++ .batchRequest digest :: after :=
        hqueue.trans (congrArg _ heq)
      obtain ⟨hpresent, hkept⟩ := h.requests _ digest after hin
      exact ⟨hstored digest hpresent (hkept digests List.mem_cons_self),
        (hrest.requests before digest after heq).2⟩

theorem Readable.insert (h : s.Readable) {digest : D} {value : PersistedValue A P}
    (hworker : s.worker = .checked digest value) (hkept : ¬ s.Deleting digest) :
    (s.insert digest value).Readable := by
  have hfree : ∀ other found, s.worker ≠ .cached other found := by
    intro other found hcached
    rw [hworker] at hcached
    cases hcached
  have hpresent : ∀ other, s.Present other → s.Stored other := by
    rintro other (hstored | ⟨found, hfound⟩)
    · exact hstored
    · exact absurd hfound (hfree other found)
  have hsound := h.worker
  rw [hworker] at hsound
  unfold BatchStore.insert
  split
  next panic hpanic => exact h.setWorker hfree trivial
  next reader err hupdate =>
    obtain ⟨kept, hok, -⟩ | ⟨_, -, hsame⟩ := BatchReader.updateCache_dbCache hupdate
    · cases hok
    · refine h.transfer rfl (fun other hother => Or.inl (hpresent other hother)) ?_
        (fun _ _ _ hin => hin) trivial
      intro other found hfound
      dsimp only at hfound
      rw [hsame] at hfound
      exact Or.inl (Option.ne_none_iff_exists'.mpr ⟨found, hfound⟩)
  next reader hupdate =>
    obtain ⟨kept, -, hset⟩ | ⟨err, herr, -⟩ := BatchReader.updateCache_dbCache hupdate
    · refine h.transfer rfl (fun other hother => Or.inl (hpresent other hother)) ?_
        (fun _ _ _ hin => hin) hsound
      intro other found hfound
      dsimp only at hfound
      by_cases hother : other = digest
      · subst hother
        exact Or.inr ⟨Or.inr ⟨value, rfl⟩, hkept⟩
      · rw [hset, get_set_of_ne hother] at hfound
        exact Or.inl (Option.ne_none_iff_exists'.mpr ⟨found, hfound⟩)
    · cases herr

omit [DecidableEq A] in
theorem Readable.saveBatch (h : s.Readable) {digest : D} {value : PersistedValue A P}
    (hworker : s.worker = .cached digest value) :
    { s with db := Function.update s.db digest (some value), worker := .idle }.Readable := by
  have hsound := h.worker
  rw [hworker] at hsound
  refine h.transfer rfl ?_ ?_ (fun _ _ _ hin => hin) trivial
  · intro other hpresent
    by_cases hother : other = digest
    · exact Or.inl ⟨value, by simp [hother], hsound⟩
    · obtain ⟨found, hfound, hsome⟩ | ⟨found, hfound⟩ := hpresent
      · exact Or.inl ⟨found, by simp [hother, hfound], hsome⟩
      · rw [hworker] at hfound
        cases hfound
        exact absurd rfl hother
  · exact fun other found hfound => Or.inl (Option.ne_none_iff_exists'.mpr ⟨found, hfound⟩)

theorem Readable.clear (h : s.Readable) {round : ℕ} {digest : D} {todo cleared : List D}
    (hupdater : s.updater = .clearing round (digest :: todo) cleared)
    {reader : BatchReader D A P} {removed : Bool}
    (hclear : s.reader.clearDigest round digest = .ok (reader, removed)) :
    { s with
      reader := reader
      updater := .clearing round todo
        (if removed then cleared ++ [digest] else cleared) }.Readable := by
  have hcache := BatchReader.clearDigest_dbCache hclear
  refine h.transfer rfl (fun other hother => hother) ?_ ?_ h.worker
  · intro other found hfound
    dsimp only at hfound
    rw [hcache] at hfound
    split at hfound
    · have hne : other ≠ digest := by
        rintro rfl
        rw [get_erase_self] at hfound
        cases hfound
      rw [get_erase_of_ne hne] at hfound
      exact Or.inl (Option.ne_none_iff_exists'.mpr ⟨found, hfound⟩)
    · exact Or.inl (Option.ne_none_iff_exists'.mpr ⟨found, hfound⟩)
  · intro other found hfound hin
    dsimp only at hfound
    rw [hcache] at hfound
    have hold : s.cleared = cleared := by rw [BatchStore.cleared, hupdater]
    change other ∈ (if removed then cleared ++ [digest] else cleared) at hin
    rw [hold]
    split at hin
    next hremoved =>
      rw [if_pos hremoved] at hfound
      refine (List.mem_append.mp hin).resolve_right fun hlast => ?_
      rw [List.mem_singleton.mp hlast, get_erase_self] at hfound
      cases hfound
    next => exact hin

omit [DecidableEq A] in
/-- The deletion of the cleared digests is asked for. -/
theorem Readable.sendClean (h : s.Readable) {round : ℕ} {cleared : List D}
    (hupdater : s.updater = .clearing round [] cleared) :
    { s with
      queue := s.queue ++ [StoreCommand.clean cleared]
      updater := Updater.idle }.Readable := by
  have hold : s.cleared = cleared := by rw [BatchStore.cleared, hupdater]
  have hqueue : { s with queue := s.queue ++ [StoreCommand.clean cleared] }.Readable := by
    refine h.enqueue (fun digests heq digest hdigest => ?_) fun digest heq => by cases heq
    cases heq
    exact Or.inl (hold ▸ hdigest)
  refine hqueue.transfer rfl (fun other hother => hother) ?_ (fun _ _ _ hin => by cases hin)
    h.worker
  exact fun other found hfound => Or.inl (Option.ne_none_iff_exists'.mpr ⟨found, hfound⟩)

theorem Readable.step (h : s.Readable) {label : StoreLabel D A P} (hguard : InsertsKept label s)
    (hstep : step label s = some s') : s'.Readable := by
  cases label with
  | send digest payload expiration author numBytes =>
    cases hstep
    exact h.enqueue (fun digests heq => by cases heq) fun digest heq => by cases heq
  | getBatch digest =>
    cases hstep
    exact h.getBatch digest
  | receive =>
    simp only [BatchStore.step] at hstep
    split at hstep
    next command rest hidle hqueue =>
      cases hstep
      exact h.receive hidle hqueue
    next => cases hstep
  | updateCache =>
    simp only [BatchStore.step] at hstep
    split at hstep
    next digest value hworker =>
      cases hstep
      exact h.insert hworker (hguard digest value hworker)
    next => cases hstep
  | saveBatch =>
    simp only [BatchStore.step] at hstep
    split at hstep
    next digest value hworker =>
      cases hstep
      exact h.saveBatch hworker
    next => cases hstep
  | certify certifiedTime order =>
    simp only [BatchStore.step] at hstep
    split at hstep
    next hidle =>
      split at hstep
      · cases hstep
        refine h.transfer rfl (fun other hother => hother) ?_ (fun _ _ _ hin => by cases hin)
          h.worker
        exact fun other found hfound => Or.inl (Option.ne_none_iff_exists'.mpr ⟨found, hfound⟩)
      · cases hstep
    next => cases hstep
  | clear =>
    simp only [BatchStore.step] at hstep
    split at hstep
    next round digest todo cleared hupdater =>
      split at hstep
      next reader removed hclear =>
        cases hstep
        exact h.clear hupdater hclear
      next => cases hstep
    next => cases hstep
  | sendClean =>
    simp only [BatchStore.step] at hstep
    split at hstep
    next round cleared hupdater =>
      cases hstep
      exact h.sendClean hupdater
    next => cases hstep

/-- No task is in the middle of something and nothing is queued. -/
structure Quiet (s : BatchStore D A P) : Prop where
  queue : s.queue = []
  worker : s.worker = .idle
  updater : s.updater = .idle

/-- The store after a start: every cached batch was read from the database. -/
structure Started (s : BatchStore D A P) : Prop extends s.Quiet where
  stored : ∀ digest value, get digest s.reader.dbCache = some value → s.Stored digest

omit [DecidableEq A] in
theorem Started.readable (h : s.Started) : s.Readable := by
  refine ⟨fun digest value hvalue => ⟨Or.inl (h.stored digest value hvalue), ?_⟩,
    fun before digest after heq => ?_, ?_⟩
  · rintro (hin | ⟨digests, hin, -⟩)
    · rw [cleared, h.updater] at hin
      cases hin
    · rw [h.queue] at hin
      cases hin
  · rw [h.queue] at heq
    exact absurd heq.symm (by simp)
  · rw [h.worker]
    trivial

/-- As long as no batch is cached between the time its digest is cleared and its deletion, every
request finds its payload in the database, and every cached batch is readable when the tasks are
at rest. -/
theorem cached_batches_readable {start s : BatchStore D A P} (hstart : start.Started)
    (hs : Reachable step InsertsKept start s) :
    s.worker ≠ .unreachable ∧
      (s.Quiet → ∀ digest value, get digest s.reader.dbCache = some value →
        value.maybePayload.isSome ∨ s.Stored digest) := by
  have hreadable : s.Readable :=
    hs.invariant hstart.readable fun label s s' _ h hguard hstep => h.step hguard hstep
  refine ⟨fun hworker => ?_, fun hquiet digest value hvalue => ?_⟩
  · have hsound := hreadable.worker
    rw [hworker] at hsound
    exact hsound
  · exact Or.inr ((hreadable.cache digest value hvalue).1.stored hquiet.worker)

end BatchStore

/-- An empty store without room in memory. -/
def emptyStore : BatchStore ℕ ℕ Unit where
  reader := BatchReader.empty 0 0 0 100 0 0 15
  db := fun _ => none
  queue := []
  worker := .idle
  updater := .idle

theorem started_emptyStore : emptyStore.Started where
  queue := rfl
  worker := rfl
  updater := rfl
  stored := fun _ _ h => by cases h

/-- The batch 1 is saved and read. -/
def saveAndRead : List (StoreLabel ℕ ℕ Unit) :=
  [.send 1 () ⟨0, 1⟩ 7 4, .receive, .updateCache, .saveBatch, .getBatch 1, .receive]

namespace BatchStore

theorem cached_batches_readable_saveAndRead :
    ∃ s, follow step saveAndRead emptyStore = some s ∧ s.worker ≠ .unreachable ∧
      (s.Quiet → ∀ digest value, get digest s.reader.dbCache = some value →
        value.maybePayload.isSome ∨ s.Stored digest) := by
  have hguarded : Guarded step InsertsKept saveAndRead emptyStore := by
    refine ⟨trivial, fun s hs => ?_⟩
    cases hs
    refine ⟨trivial, fun s hs => ?_⟩
    cases hs
    refine ⟨fun digest value _ hdeleting => ?_, fun s hs => ?_⟩
    · obtain hin | ⟨digests, hin, -⟩ := hdeleting
      · cases hin
      · cases hin
    · cases hs
      refine ⟨trivial, fun s hs => ?_⟩
      cases hs
      exact ⟨trivial, fun s hs => ⟨trivial, fun _ _ => trivial⟩⟩
  exact ⟨_, rfl, cached_batches_readable started_emptyStore
    (Reachable.start.follow saveAndRead hguarded rfl)⟩

end BatchStore

/-- The batch 1 expires and is saved again before the deletion of its digest is sent. -/
def staleDeletion : List (StoreLabel ℕ ℕ Unit) :=
  [.send 1 () ⟨0, 1⟩ 7 4, .receive, .updateCache, .saveBatch, .certify ⟨0, 1⟩ [1], .clear,
    .send 1 () ⟨0, 5⟩ 7 4, .receive, .updateCache, .saveBatch, .sendClean, .receive]

open BatchStore in
/-- The late deletion removes the batch that was saved again: it is cached without a payload and
not in the database, and the next request for it finds nothing. -/
theorem deletion_removes_saved_batch :
    ∃ s, follow step staleDeletion emptyStore = some s ∧ s.Quiet ∧
      (∃ value, get 1 s.reader.dbCache = some value ∧ value.maybePayload = none) ∧
      s.db 1 = none ∧
      ∃ s', follow step [.getBatch 1, .receive] s = some s' ∧ s'.worker = .unreachable :=
  ⟨_, rfl, ⟨rfl, rfl, rfl⟩, ⟨_, rfl, rfl⟩, rfl, _, rfl, rfl⟩

end Anthemius.QuorumStore

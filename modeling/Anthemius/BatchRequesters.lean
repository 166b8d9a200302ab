import Mathlib.Data.List.Count
import Mathlib.Data.List.Induction
import Mathlib.Data.List.Nodup
import Mathlib.Data.Int.Basic
import Mathlib.Logic.Function.Basic

/-!
# Fetching batches from their signers

The batch requester keeps one request state per digest and a queue of timeouts. A run is a
sequence of `add_request`, `serve_request` and `handle_timeouts` calls; what goes to the network
and to the return channels is recorded in a log. Every clock reading is an input of its call.
-/

namespace Anthemius.QuorumStore

/-- The error of a fetch whose retries are used up. -/
inductive FetchError
  | couldNotGetData
  deriving DecidableEq, Repr

/-- One pending fetch: the peers to ask in turn, and the channel its answer goes to. -/
structure BatchRequesterState (A C : Type*) where
  signers : List A
  signers_ne : signers ≠ []
  nextIndex : ℕ
  retTx : C
  numRetries : ℕ
  maxNumRetry : ℕ

namespace BatchRequesterState

variable {A C : Type*}

def new (signers : List A) (signers_ne : signers ≠ []) (retTx : C) : BatchRequesterState A C :=
  ⟨signers, signers_ne, 0, retTx, 0, 5⟩

/-- `numPeers` signers from `nextIndex` on, around the list as often as needed. -/
def peersFrom (s : BatchRequesterState A C) (numPeers : ℕ) : List A :=
  (List.range numPeers).map fun i =>
    s.signers.get ⟨(s.nextIndex + i) % s.signers.length,
      Nat.mod_lt _ (List.length_pos_of_ne_nil s.signers_ne)⟩

def nextRequestPeers (s : BatchRequesterState A C) (numPeers : ℕ) :
    Option (List A × BatchRequesterState A C) :=
  if s.numRetries < s.maxNumRetry then
    some (s.peersFrom numPeers,
      { s with
        numRetries := s.numRetries + 1
        nextIndex := (s.nextIndex + numPeers) % s.signers.length })
  else none

theorem nextRequestPeers_eq_some {s t : BatchRequesterState A C} {n : ℕ} {peers : List A}
    (h : s.nextRequestPeers n = some (peers, t)) :
    s.numRetries < s.maxNumRetry ∧ t.retTx = s.retTx ∧ t.numRetries = s.numRetries + 1 ∧
      t.maxNumRetry = s.maxNumRetry := by
  rw [nextRequestPeers] at h
  split at h
  case isTrue hlt =>
    obtain ⟨rfl, rfl⟩ := Prod.mk.inj (Option.some.inj h)
    exact ⟨hlt, rfl, rfl, rfl⟩
  case isFalse => exact absurd h (by simp)

theorem nextRequestPeers_eq_none {s : BatchRequesterState A C} {n : ℕ}
    (h : s.nextRequestPeers n = none) : s.maxNumRetry ≤ s.numRetries := by
  by_contra hlt
  rw [nextRequestPeers, if_pos (by omega)] at h
  exact absurd h (by simp)

end BatchRequesterState

/-- What leaves the requester: a request sent to peers on behalf of a return channel, or the
answer put on the channel. -/
inductive Notice (A C D P : Type*)
  | requested (channel : C) (digest : D) (peers : List A)
  | answered (channel : C) (digest : D) (answer : Except FetchError P)
  deriving DecidableEq

namespace Notice

variable {A C D P : Type*}

def channel : Notice A C D P → C
  | requested c _ _ => c
  | answered c _ _ => c

/-- The notice is a request sent on behalf of the channel. -/
def requestsFor [DecidableEq C] (c : C) : Notice A C D P → Bool
  | requested c' _ _ => decide (c' = c)
  | answered _ _ _ => false

end Notice

/-- The batch requester with the log of all it has sent. -/
structure BatchRequester (A C D P : Type*) where
  requestNumPeers : ℕ
  requestTimeoutMs : ℕ
  digestToState : D → Option (BatchRequesterState A C)
  timeouts : List (ℤ × D)
  log : List (Notice A C D P)

/-- A call on the requester, with the readings of the clock made during it. -/
inductive FetchCall (A C D P : Type*)
  | addRequest (digest : D) (signers : List A) (signers_ne : signers ≠ []) (retTx : C) (now : ℤ)
  | serveRequest (digest : D) (payload : P)
  | handleTimeouts (now : ℤ) (readings : ℕ → ℤ)

namespace BatchRequester

variable {A C D P : Type*} [DecidableEq D]

def new (requestNumPeers requestTimeoutMs : ℕ) : BatchRequester A C D P :=
  ⟨requestNumPeers, requestTimeoutMs, fun _ => none, [], []⟩

/-- Sends the request of a digest to some peers, keeps the advanced state and queues a timeout. -/
def ask (r : BatchRequester A C D P) (digest : D) (peers : List A)
    (s : BatchRequesterState A C) (now : ℤ) : BatchRequester A C D P :=
  { r with
    digestToState := Function.update r.digestToState digest (some s)
    timeouts := r.timeouts ++ [(now + r.requestTimeoutMs, digest)]
    log := r.log ++ [.requested s.retTx digest peers] }

/-- Removes the state of a digest and answers on its channel. -/
def answer (r : BatchRequester A C D P) (digest : D) (s : BatchRequesterState A C)
    (result : Except FetchError P) : BatchRequester A C D P :=
  { r with
    digestToState := Function.update r.digestToState digest none
    log := r.log ++ [.answered s.retTx digest result] }

@[simp] theorem ask_digestToState (r : BatchRequester A C D P) (d : D) (peers : List A)
    (s : BatchRequesterState A C) (now : ℤ) :
    (r.ask d peers s now).digestToState = Function.update r.digestToState d (some s) := rfl

@[simp] theorem ask_log (r : BatchRequester A C D P) (d : D) (peers : List A)
    (s : BatchRequesterState A C) (now : ℤ) :
    (r.ask d peers s now).log = r.log ++ [.requested s.retTx d peers] := rfl

@[simp] theorem ask_timeouts (r : BatchRequester A C D P) (d : D) (peers : List A)
    (s : BatchRequesterState A C) (now : ℤ) :
    (r.ask d peers s now).timeouts = r.timeouts ++ [(now + r.requestTimeoutMs, d)] := rfl

@[simp] theorem answer_digestToState (r : BatchRequester A C D P) (d : D)
    (s : BatchRequesterState A C) (result : Except FetchError P) :
    (r.answer d s result).digestToState = Function.update r.digestToState d none := rfl

@[simp] theorem answer_log (r : BatchRequester A C D P) (d : D) (s : BatchRequesterState A C)
    (result : Except FetchError P) :
    (r.answer d s result).log = r.log ++ [.answered s.retTx d result] := rfl

def addRequest (r : BatchRequester A C D P) (digest : D) (signers : List A)
    (signers_ne : signers ≠ []) (retTx : C) (now : ℤ) : BatchRequester A C D P :=
  -- the first try is always granted, so the source unwraps it
  match (BatchRequesterState.new signers signers_ne retTx).nextRequestPeers r.requestNumPeers with
  | some (peers, s) => r.ask digest peers s now
  | none => r

/-- One expired digest: the next peers are asked, or the fetch is given up. -/
def retry (r : BatchRequester A C D P) (digest : D) (now : ℤ) : BatchRequester A C D P :=
  match r.digestToState digest with
  | none => r
  | some s =>
    match s.nextRequestPeers r.requestNumPeers with
    | some (peers, s') => r.ask digest peers s' now
    | none => r.answer digest s (.error .couldNotGetData)

def retryAll : BatchRequester A C D P → List D → (ℕ → ℤ) → BatchRequester A C D P
  | r, [], _ => r
  | r, digest :: digests, readings =>
    (r.retry digest (readings 0)).retryAll digests fun i => readings (i + 1)

/-- The digests of the expired entries at the head of the queue, and the queue after them. -/
def expire (timeouts : List (ℤ × D)) (now : ℤ) : List D × List (ℤ × D) :=
  ((timeouts.takeWhile fun e => decide (e.1 ≤ now)).map Prod.snd,
    timeouts.dropWhile fun e => decide (e.1 ≤ now))

def handleTimeouts (r : BatchRequester A C D P) (now : ℤ) (readings : ℕ → ℤ) :
    BatchRequester A C D P :=
  { r with timeouts := (expire r.timeouts now).2 }.retryAll (expire r.timeouts now).1 readings

def serveRequest (hash : P → D) (r : BatchRequester A C D P) (digest : D) (payload : P) :
    BatchRequester A C D P :=
  match r.digestToState digest with
  | none => r
  | some s => if hash payload = digest then r.answer digest s (.ok payload) else r

def call (hash : P → D) (r : BatchRequester A C D P) : FetchCall A C D P → BatchRequester A C D P
  | .addRequest digest signers signers_ne retTx now =>
    r.addRequest digest signers signers_ne retTx now
  | .serveRequest digest payload => r.serveRequest hash digest payload
  | .handleTimeouts now readings => r.handleTimeouts now readings

def calls (hash : P → D) (r : BatchRequester A C D P) (cs : List (FetchCall A C D P)) :
    BatchRequester A C D P :=
  cs.foldl (call hash) r

theorem calls_concat (hash : P → D) (r : BatchRequester A C D P) (cs : List (FetchCall A C D P))
    (x : FetchCall A C D P) : r.calls hash (cs ++ [x]) = (r.calls hash cs).call hash x := by
  simp only [calls, List.foldl_append, List.foldl_cons, List.foldl_nil]

theorem addRequest_eq (r : BatchRequester A C D P) (digest : D) (signers : List A)
    (signers_ne : signers ≠ []) (retTx : C) (now : ℤ) :
    ∃ peers s, s.retTx = retTx ∧ s.numRetries = 1 ∧ s.maxNumRetry = 5 ∧
      r.addRequest digest signers signers_ne retTx now = r.ask digest peers s now :=
  ⟨_, _, rfl, rfl, rfl, rfl⟩

/-- What an expired digest comes to: nothing, one more request, or an error once all retries
have been made. -/
theorem retry_cases (r : BatchRequester A C D P) (digest : D) (now : ℤ) :
    (r.digestToState digest = none ∧ r.retry digest now = r) ∨
    (∃ s s' peers, r.digestToState digest = some s ∧ s.numRetries < s.maxNumRetry ∧
      s'.retTx = s.retTx ∧ s'.numRetries = s.numRetries + 1 ∧ s'.maxNumRetry = s.maxNumRetry ∧
      r.retry digest now = r.ask digest peers s' now) ∨
    (∃ s, r.digestToState digest = some s ∧ s.maxNumRetry ≤ s.numRetries ∧
      r.retry digest now = r.answer digest s (.error .couldNotGetData)) := by
  cases hs : r.digestToState digest with
  | none => exact .inl ⟨rfl, by rw [retry, hs]⟩
  | some s =>
    refine .inr ?_
    cases hn : s.nextRequestPeers r.requestNumPeers with
    | some next =>
      obtain ⟨peers, s'⟩ := next
      obtain ⟨hlt, htx, hretries, hmax⟩ := BatchRequesterState.nextRequestPeers_eq_some hn
      exact .inl ⟨s, s', peers, rfl, hlt, htx, hretries, hmax, by rw [retry, hs]; simp only [hn]⟩
    | none =>
      exact .inr ⟨s, rfl, BatchRequesterState.nextRequestPeers_eq_none hn,
        by rw [retry, hs]; simp only [hn]⟩

theorem serveRequest_cases (hash : P → D) (r : BatchRequester A C D P) (digest : D)
    (payload : P) :
    r.serveRequest hash digest payload = r ∨
    ∃ s, r.digestToState digest = some s ∧ hash payload = digest ∧
      r.serveRequest hash digest payload = r.answer digest s (.ok payload) := by
  cases hs : r.digestToState digest with
  | none => exact .inl (by rw [serveRequest, hs])
  | some s =>
    by_cases hhash : hash payload = digest
    · exact .inr ⟨s, rfl, hhash, by rw [serveRequest, hs]; exact if_pos hhash⟩
    · exact .inl (by rw [serveRequest, hs]; exact if_neg hhash)

omit [DecidableEq D] in
theorem expire_append (timeouts : List (ℤ × D)) (now : ℤ) :
    (expire timeouts now).1 ++ (expire timeouts now).2.map Prod.snd = timeouts.map Prod.snd := by
  rw [expire, ← List.map_append, List.takeWhile_append_dropWhile]

end BatchRequester

/-- The digest and the return channel a call brings in. -/
def FetchCall.added {A C D P : Type*} : FetchCall A C D P → Option (D × C)
  | .addRequest digest _ _ retTx _ => some (digest, retTx)
  | .serveRequest _ _ => none
  | .handleTimeouts _ _ => none

/-- All requests brought in, oldest first. -/
def requests {A C D P : Type*} (cs : List (FetchCall A C D P)) : List (D × C) :=
  cs.filterMap FetchCall.added

theorem requests_concat {A C D P : Type*} (cs : List (FetchCall A C D P)) (x : FetchCall A C D P) :
    requests (cs ++ [x]) = requests cs ++ x.added.toList := by
  rw [requests, List.filterMap_append, requests]
  cases x <;> rfl

namespace BatchRequester

variable {A C D P : Type*} [DecidableEq D] [DecidableEq C]

/-- What holds between the elementary steps of a run that has brought in the requests `added`,
while the digests `owed` have left the queue and are still to be handled. -/
structure Sound (hash : P → D) (added : List (D × C)) (owed : List D)
    (r : BatchRequester A C D P) : Prop where
  brought : ∀ d s, r.digestToState d = some s → (d, s.retTx) ∈ added
  retries : ∀ d s, r.digestToState d = some s → s.maxNumRetry = 5 ∧ s.numRetries ≤ 5 ∧
    r.log.countP (Notice.requestsFor s.retTx) = s.numRetries
  unanswered : ∀ d s, r.digestToState d = some s → ∀ d' a, .answered s.retTx d' a ∉ r.log
  queued : ∀ d, r.digestToState d ≠ none → d ∈ r.timeouts.map Prod.snd ∨ d ∈ owed
  fitting : ∀ c d p, .answered c d (.ok p) ∈ r.log → (d, c) ∈ added ∧ hash p = d
  patient : ∀ c d before, before ++ [.answered c d (.error .couldNotGetData)] <+: r.log →
    before.countP (Notice.requestsFor c) = 5
  known : ∀ e ∈ r.log, e.channel ∈ added.map Prod.snd

variable {hash : P → D} {added : List (D × C)} {owed : List D} {r : BatchRequester A C D P}

omit [DecidableEq D] in
theorem sound_new (n t : ℕ) : Sound hash added [] (new n t : BatchRequester A C D P) where
  brought := fun _ _ h => absurd h (by simp [new])
  retries := fun _ _ h => absurd h (by simp [new])
  unanswered := fun _ _ h => absurd h (by simp [new])
  queued := fun _ h => absurd rfl h
  fitting := fun _ _ _ h => absurd h (by simp [new])
  patient := fun _ _ _ h => absurd (List.prefix_nil.mp h) (by simp)
  known := fun _ h => absurd h (by simp [new])

omit [DecidableEq D] in
theorem Sound.mono (h : Sound hash added owed r) {added' : List (D × C)} {owed' : List D}
    (ha : added ⊆ added') (ho : owed ⊆ owed') : Sound hash added' owed' r where
  brought := fun d s hs => ha (h.brought d s hs)
  retries := h.retries
  unanswered := h.unanswered
  queued := fun d hd => (h.queued d hd).imp_right fun hmem => ho hmem
  fitting := fun c d p he => (h.fitting c d p he).imp_left fun hmem => ha hmem
  patient := h.patient
  known := fun e he => List.map_subset Prod.snd ha (h.known e he)

omit [DecidableEq D] [DecidableEq C] in
theorem digest_unique (hnd : (added.map Prod.snd).Nodup) {d d' : D} {c : C} (h : (d, c) ∈ added)
    (h' : (d', c) ∈ added) : d = d' :=
  congrArg Prod.fst (List.inj_on_of_nodup_map hnd h h' rfl)

section Steps

variable {d : D} {s : BatchRequesterState A C}

theorem Sound.ask (h : Sound hash added (d :: owed) r) (hnd : (added.map Prod.snd).Nodup)
    {peers : List A} {now : ℤ} (hmem : (d, s.retTx) ∈ added) (hmax : s.maxNumRetry = 5)
    (hle : s.numRetries ≤ 5)
    (hcount : r.log.countP (Notice.requestsFor s.retTx) + 1 = s.numRetries)
    (hun : ∀ d' a, .answered s.retTx d' a ∉ r.log) :
    Sound hash added owed (r.ask d peers s now) where
  brought := by
    intro d' s' hs'
    rw [ask_digestToState, Function.update_apply] at hs'
    split_ifs at hs' with hd
    · exact Option.some.inj hs' ▸ hd ▸ hmem
    · exact h.brought d' s' hs'
  retries := by
    intro d' s' hs'
    rw [ask_digestToState, Function.update_apply] at hs'
    split_ifs at hs' with hd
    · obtain rfl := Option.some.inj hs'
      refine ⟨hmax, hle, ?_⟩
      simp [List.countP_append, Notice.requestsFor, hcount]
    · obtain ⟨hmax', hle', hcount'⟩ := h.retries d' s' hs'
      -- the request counts for its own channel only
      have hne : s.retTx ≠ s'.retTx := fun heq =>
        hd (digest_unique hnd (h.brought d' s' hs') (heq ▸ hmem))
      refine ⟨hmax', hle', ?_⟩
      simp [List.countP_append, Notice.requestsFor, hne, hcount']
  unanswered := by
    intro d' s' hs' d'' a hmem'
    have hold : .answered s'.retTx d'' a ∈ r.log := by simpa using hmem'
    rw [ask_digestToState, Function.update_apply] at hs'
    split_ifs at hs'
    · obtain rfl := Option.some.inj hs'
      exact hun d'' a hold
    · exact h.unanswered d' s' hs' d'' a hold
  queued := by
    intro d' hd'
    rcases eq_or_ne d' d with rfl | hd
    · exact .inl (by simp)
    · rw [ask_digestToState, Function.update_of_ne hd] at hd'
      rcases h.queued d' hd' with hq | ho
      · exact .inl (by rw [ask_timeouts, List.map_append]; exact List.mem_append_left _ hq)
      · exact .inr ((List.mem_cons.mp ho).resolve_left hd)
  fitting := fun c d' p he => h.fitting c d' p (by simpa using he)
  patient := by
    intro c d' before hpre
    rcases List.prefix_concat_iff.mp hpre with heq | hold
    · exact absurd (List.append_inj_right' heq rfl) (by simp)
    · exact h.patient c d' before hold
  known := by
    intro e he
    rcases List.mem_append.mp he with hold | hnew
    · exact h.known e hold
    · rw [List.mem_singleton.mp hnew]
      exact List.mem_map_of_mem hmem

theorem Sound.answer (h : Sound hash added (d :: owed) r) (hnd : (added.map Prod.snd).Nodup)
    (hs : r.digestToState d = some s) {result : Except FetchError P}
    (hok : ∀ p, result = .ok p → hash p = d)
    (herror : result = .error .couldNotGetData → s.numRetries = 5) :
    Sound hash added owed (r.answer d s result) := by
  have hold : ∀ d' s', (r.answer d s result).digestToState d' = some s' →
      d' ≠ d ∧ r.digestToState d' = some s' := by
    intro d' s' hs'
    rw [answer_digestToState, Function.update_apply] at hs'
    split_ifs at hs' with hd
    exact ⟨hd, hs'⟩
  refine ⟨fun d' s' hs' => h.brought d' s' (hold d' s' hs').2, ?_, ?_, ?_, ?_, ?_, ?_⟩
  · intro d' s' hs'
    obtain ⟨hmax, hle, hcount⟩ := h.retries d' s' (hold d' s' hs').2
    refine ⟨hmax, hle, ?_⟩
    simp [List.countP_append, Notice.requestsFor, hcount]
  · intro d' s' hs' d'' a hmem
    obtain ⟨hd, hs''⟩ := hold d' s' hs'
    rcases List.mem_append.mp hmem with hlog | hnew
    · exact h.unanswered d' s' hs'' d'' a hlog
    · obtain ⟨heq, -, -⟩ := Notice.answered.inj (List.mem_singleton.mp hnew)
      exact hd (digest_unique hnd (h.brought d' s' hs'') (heq ▸ h.brought d s hs))
  · intro d' hd'
    obtain ⟨s', hs'⟩ := Option.ne_none_iff_exists'.mp hd'
    obtain ⟨hd, hs''⟩ := hold d' s' hs'
    refine (h.queued d' (hs'' ▸ Option.some_ne_none s')).imp_right fun ho => ?_
    exact (List.mem_cons.mp ho).resolve_left hd
  · intro c d' p he
    rcases List.mem_append.mp he with hlog | hnew
    · exact h.fitting c d' p hlog
    · obtain ⟨rfl, rfl, hres⟩ := Notice.answered.inj (List.mem_singleton.mp hnew)
      exact ⟨h.brought d' s hs, hok p hres.symm⟩
  · intro c d' before hpre
    rcases List.prefix_concat_iff.mp hpre with heq | hlog
    · obtain ⟨rfl, hlast⟩ := List.append_inj' heq rfl
      obtain ⟨rfl, rfl, hres⟩ := Notice.answered.inj (List.cons.inj hlast).1
      rw [(h.retries d' s hs).2.2, herror hres.symm]
    · exact h.patient c d' before hlog
  · intro e he
    rcases List.mem_append.mp he with hlog | hnew
    · exact h.known e hlog
    · rw [List.mem_singleton.mp hnew]
      exact List.mem_map_of_mem (h.brought d s hs)

end Steps

theorem Sound.retry (h : Sound hash added (d :: owed) r) (hnd : (added.map Prod.snd).Nodup)
    (now : ℤ) : Sound hash added owed (r.retry d now) := by
  rcases retry_cases r d now with ⟨hs, heq⟩ | ⟨s, s', peers, hs, hlt, htx, hretries, hmax, heq⟩ |
    ⟨s, hs, hle, heq⟩
  · rw [heq]
    refine { h with queued := fun d' hd' => (h.queued d' hd').imp_right fun ho => ?_ }
    refine (List.mem_cons.mp ho).resolve_left ?_
    rintro rfl
    exact hd' hs
  · obtain ⟨hmax5, -, hcount⟩ := h.retries d s hs
    rw [heq]
    refine h.ask hnd (htx ▸ h.brought d s hs) (hmax.trans hmax5) (by omega) ?_ ?_
    · rw [htx, hcount, hretries]
    · rw [htx]
      exact h.unanswered d s hs
  · obtain ⟨hmax5, hle5, -⟩ := h.retries d s hs
    rw [heq]
    exact h.answer hnd hs (fun p hp => absurd hp (by simp)) fun _ => by omega

theorem Sound.retryAll (hnd : (added.map Prod.snd).Nodup) (digests : List D) :
    ∀ {r : BatchRequester A C D P} (readings : ℕ → ℤ), Sound hash added digests r →
      Sound hash added [] (r.retryAll digests readings) := by
  induction digests with
  | nil => exact fun _ h => h
  | cons d digests ih => exact fun readings h => ih _ (h.retry hnd (readings 0))

theorem Sound.handleTimeouts (h : Sound hash added [] r) (hnd : (added.map Prod.snd).Nodup)
    (now : ℤ) (readings : ℕ → ℤ) : Sound hash added [] (r.handleTimeouts now readings) := by
  refine Sound.retryAll hnd _ readings { h with queued := fun d hd => ?_ }
  have hmem := (h.queued d hd).resolve_right List.not_mem_nil
  rw [← expire_append r.timeouts now, List.mem_append] at hmem
  exact hmem.symm

theorem Sound.serveRequest (h : Sound hash added [] r) (hnd : (added.map Prod.snd).Nodup)
    (digest : D) (payload : P) : Sound hash added [] (r.serveRequest hash digest payload) := by
  rcases serveRequest_cases hash r digest payload with heq | ⟨s, hs, hhash, heq⟩
  · rwa [heq]
  · rw [heq]
    refine (h.mono (List.Subset.refl added) (List.nil_subset [digest])).answer hnd hs ?_ ?_
    · exact fun p hp => Except.ok.inj hp ▸ hhash
    · exact fun hres => absurd hres (by simp)

theorem Sound.addRequest (h : Sound hash added [] r) {digest : D} {retTx : C}
    (hnd : ((added ++ [(digest, retTx)]).map Prod.snd).Nodup) (signers : List A)
    (signers_ne : signers ≠ []) (now : ℤ) :
    Sound hash (added ++ [(digest, retTx)]) []
      (r.addRequest digest signers signers_ne retTx now) := by
  obtain ⟨peers, s, htx, hretries, hmax, heq⟩ := addRequest_eq r digest signers signers_ne retTx now
  have hfresh : retTx ∉ added.map Prod.snd := by
    rw [List.map_append, List.nodup_append] at hnd
    exact fun hmem => hnd.2.2 retTx hmem retTx (by simp) rfl
  have hunused : ∀ e ∈ r.log, e.channel ≠ s.retTx := fun e he hc =>
    hfresh (htx ▸ hc ▸ h.known e he)
  rw [heq]
  refine (h.mono (List.subset_append_left added _) (List.nil_subset [digest])).ask hnd ?_ hmax
    (by omega) ?_ ?_
  · rw [htx]
    exact List.mem_append_right added List.mem_cons_self
  · rw [hretries, List.countP_eq_zero.mpr]
    intro e he
    cases e with
    | requested c d peers => simpa [Notice.requestsFor, Notice.channel] using hunused _ he
    | answered c d a => simp [Notice.requestsFor]
  · exact fun d' a he => hunused _ he rfl

/-- The invariant of a whole run. -/
theorem sound_calls (hash : P → D) (n t : ℕ) (cs : List (FetchCall A C D P)) :
    ((requests cs).map Prod.snd).Nodup →
      Sound hash (requests cs) [] ((new n t : BatchRequester A C D P).calls hash cs) := by
  induction cs using List.reverseRecOn with
  | nil => exact fun _ => sound_new n t
  | append_singleton cs x ih =>
    intro hnd
    rw [requests_concat] at hnd ⊢
    rw [calls_concat]
    have hprev := ih (by rw [List.map_append] at hnd; exact hnd.of_append_left)
    cases x with
    | addRequest digest signers signers_ne retTx now =>
      exact hprev.addRequest hnd signers signers_ne now
    | serveRequest digest payload =>
      simp only [FetchCall.added, Option.toList_none, List.append_nil] at hnd ⊢
      exact hprev.serveRequest hnd digest payload
    | handleTimeouts now readings =>
      simp only [FetchCall.added, Option.toList_none, List.append_nil] at hnd ⊢
      exact hprev.handleTimeouts hnd now readings

/-- The channel is not dropped: a pending request still has it, or it has its answer. -/
def Keeps (r : BatchRequester A C D P) (c : C) : Prop :=
  (∃ d s, r.digestToState d = some s ∧ s.retTx = c) ∨ ∃ d a, .answered c d a ∈ r.log

section Keeping

omit [DecidableEq C]

variable {r : BatchRequester A C D P} {d : D} {s : BatchRequesterState A C} {c : C}

theorem keeps_ask_iff {s' : BatchRequesterState A C} (hs : r.digestToState d = some s)
    (htx : s'.retTx = s.retTx) (peers : List A) (now : ℤ) :
    (r.ask d peers s' now).Keeps c ↔ r.Keeps c := by
  have hpending : (∃ d' t, (r.ask d peers s' now).digestToState d' = some t ∧ t.retTx = c) ↔
      ∃ d' t, r.digestToState d' = some t ∧ t.retTx = c := by
    refine exists_congr fun d' => ?_
    rcases eq_or_ne d' d with rfl | hd
    · simp [hs, htx]
    · simp [Function.update_of_ne hd]
  rw [Keeps, Keeps, hpending]
  simp

theorem keeps_answer_iff (hs : r.digestToState d = some s) (result : Except FetchError P) :
    (r.answer d s result).Keeps c ↔ r.Keeps c := by
  constructor
  · rintro (⟨d', t, ht, rfl⟩ | ⟨d', a, hmem⟩)
    · rcases eq_or_ne d' d with rfl | hd
      · exact absurd ht (by simp)
      · exact .inl ⟨d', t, by simpa [Function.update_of_ne hd] using ht, rfl⟩
    · rcases List.mem_append.mp hmem with hlog | hnew
      · exact .inr ⟨d', a, hlog⟩
      · obtain ⟨rfl, -, -⟩ := Notice.answered.inj (List.mem_singleton.mp hnew)
        exact .inl ⟨d, s, hs, rfl⟩
  · rintro (⟨d', t, ht, rfl⟩ | ⟨d', a, hmem⟩)
    · rcases eq_or_ne d' d with rfl | hd
      · obtain rfl := Option.some.inj (hs.symm.trans ht)
        exact .inr ⟨d', result, List.mem_append_right _ List.mem_cons_self⟩
      · exact .inl ⟨d', t, by simpa [Function.update_of_ne hd] using ht, rfl⟩
    · exact .inr ⟨d', a, List.mem_append_left _ hmem⟩

theorem keeps_retry_iff (r : BatchRequester A C D P) (d : D) (now : ℤ) :
    (r.retry d now).Keeps c ↔ r.Keeps c := by
  rcases retry_cases r d now with ⟨-, heq⟩ | ⟨s, s', peers, hs, -, htx, -, -, heq⟩ | ⟨s, hs, -, heq⟩
  · rw [heq]
  · rw [heq, keeps_ask_iff hs htx]
  · rw [heq, keeps_answer_iff hs]

theorem keeps_retryAll_iff (digests : List D) :
    ∀ (r : BatchRequester A C D P) (readings : ℕ → ℤ),
      (r.retryAll digests readings).Keeps c ↔ r.Keeps c := by
  induction digests with
  | nil => exact fun _ _ => Iff.rfl
  | cons d digests ih => exact fun r readings => (ih _ _).trans (keeps_retry_iff r d _)

theorem keeps_serveRequest_iff (hash : P → D) (r : BatchRequester A C D P) (d : D) (payload : P) :
    (r.serveRequest hash d payload).Keeps c ↔ r.Keeps c := by
  rcases serveRequest_cases hash r d payload with heq | ⟨s, hs, -, heq⟩
  · rw [heq]
  · rw [heq, keeps_answer_iff hs]

/-- A new request takes the place of the one pending for its digest, so it keeps the channels of
the other digests, the answered ones and its own. -/
theorem keeps_addRequest_iff (r : BatchRequester A C D P) (d : D) (signers : List A)
    (signers_ne : signers ≠ []) (retTx : C) (now : ℤ) :
    (r.addRequest d signers signers_ne retTx now).Keeps c ↔
      c = retTx ∨ (∃ d' s, d' ≠ d ∧ r.digestToState d' = some s ∧ s.retTx = c) ∨
        ∃ d' a, .answered c d' a ∈ r.log := by
  obtain ⟨peers, s, rfl, -, -, heq⟩ := addRequest_eq r d signers signers_ne retTx now
  rw [heq]
  constructor
  · rintro (⟨d', t, ht, rfl⟩ | ⟨d', a, hmem⟩)
    · rcases eq_or_ne d' d with rfl | hd
      · exact .inl (congrArg _ (by simpa using ht.symm))
      · exact .inr (.inl ⟨d', t, hd, by simpa [Function.update_of_ne hd] using ht, rfl⟩)
    · exact .inr (.inr ⟨d', a, by simpa using hmem⟩)
  · rintro (rfl | ⟨d', t, hd, ht, rfl⟩ | ⟨d', a, hmem⟩)
    · exact .inl ⟨d, s, by simp, rfl⟩
    · exact .inl ⟨d', t, by simpa [Function.update_of_ne hd] using ht, rfl⟩
    · exact .inr ⟨d', a, List.mem_append_left _ hmem⟩

end Keeping

/-- Every call of `add_request` in the run finds no request pending for its digest. -/
def AddsFresh (hash : P → D) (r : BatchRequester A C D P) (cs : List (FetchCall A C D P)) : Prop :=
  ∀ before digest signers signers_ne retTx now,
    before ++ [.addRequest digest signers signers_ne retTx now] <+: cs →
      (r.calls hash before).digestToState digest = none

omit [DecidableEq C] in
theorem addsFresh_concat_iff {hash : P → D} {r : BatchRequester A C D P}
    {cs : List (FetchCall A C D P)} {x : FetchCall A C D P} :
    AddsFresh hash r (cs ++ [x]) ↔ AddsFresh hash r cs ∧
      ∀ e ∈ x.added, (r.calls hash cs).digestToState e.1 = none := by
  constructor
  · intro h
    refine ⟨fun before d l hl c now hpre => h before d l hl c now
      (hpre.trans (List.prefix_append cs [x])), ?_⟩
    intro e he
    cases x with
    | addRequest digest signers signers_ne retTx now =>
      obtain rfl := Option.some.inj he
      exact h cs digest signers signers_ne retTx now (List.prefix_refl _)
    | serveRequest digest payload => exact absurd he (by simp [FetchCall.added])
    | handleTimeouts now readings => exact absurd he (by simp [FetchCall.added])
  · rintro ⟨hcs, hx⟩ before d l hl c now hpre
    rcases List.prefix_concat_iff.mp hpre with heq | hold
    · obtain ⟨rfl, hlast⟩ := List.append_inj' heq rfl
      obtain rfl := (List.cons.inj hlast).1
      exact hx (d, c) rfl
    · exact hcs before d l hl c now hold

/-- A new request drops a channel exactly if one is pending for its digest. -/
theorem Sound.keeps_addRequest_all_iff {d : D} {retTx : C} (h : Sound hash added [] r)
    (hnd : ((added ++ [(d, retTx)]).map Prod.snd).Nodup) (signers : List A)
    (signers_ne : signers ≠ []) (now : ℤ) :
    (∀ e ∈ added ++ [(d, retTx)],
        (r.addRequest d signers signers_ne retTx now).Keeps e.2) ↔
      (∀ e ∈ added, r.Keeps e.2) ∧ r.digestToState d = none := by
  rw [List.map_append, List.nodup_append] at hnd
  obtain ⟨hnodup, -, hdisjoint⟩ := hnd
  have hne : ∀ e ∈ added, e.2 ≠ retTx := fun e he =>
    hdisjoint e.2 (List.mem_map_of_mem he) retTx (by simp)
  simp only [keeps_addRequest_iff]
  constructor
  · intro hall
    refine ⟨fun e he => ?_, ?_⟩
    · rcases hall e (List.mem_append_left _ he) with heq | ⟨d', s, -, hs, hc⟩ | hanswered
      · exact absurd heq (hne e he)
      · exact .inl ⟨d', s, hs, hc⟩
      · exact .inr hanswered
    · -- the channel of a pending request would be neither held nor answered
      by_contra hpending
      obtain ⟨s, hs⟩ := Option.ne_none_iff_exists'.mp hpending
      have hmem := h.brought d s hs
      rcases hall _ (List.mem_append_left _ hmem) with heq | ⟨d', s', hd, hs', hc⟩ | ⟨d', a, ha⟩
      · exact hne _ hmem heq
      · have hown := h.brought d' s' hs'
        rw [show s'.retTx = s.retTx from hc] at hown
        exact hd (digest_unique hnodup hown hmem)
      · exact h.unanswered d s hs d' a ha
  · rintro ⟨hall, hnone⟩ e he
    rcases List.mem_append.mp he with hold | hnew
    · rcases hall e hold with ⟨d', s, hs, hc⟩ | hanswered
      · refine .inr (.inl ⟨d', s, ?_, hs, hc⟩)
        rintro rfl
        exact absurd (hnone.symm.trans hs) (by simp)
      · exact .inr (.inr hanswered)
    · exact .inl (congrArg Prod.snd (List.mem_singleton.mp hnew))

theorem keeps_calls_iff (hash : P → D) (n t : ℕ) (cs : List (FetchCall A C D P)) :
    ((requests cs).map Prod.snd).Nodup →
      ((∀ e ∈ requests cs, ((new n t : BatchRequester A C D P).calls hash cs).Keeps e.2) ↔
        AddsFresh hash (new n t : BatchRequester A C D P) cs) := by
  induction cs using List.reverseRecOn with
  | nil =>
    refine fun _ => ⟨fun _ before d l hl c now hpre => ?_, fun _ e he => ?_⟩
    · exact absurd (List.prefix_nil.mp hpre) (by simp)
    · exact absurd he (by simp [requests])
  | append_singleton cs x ih =>
    intro hnd
    rw [requests_concat] at hnd ⊢
    have hprev : ((requests cs).map Prod.snd).Nodup := by
      rw [List.map_append] at hnd
      exact hnd.of_append_left
    rw [addsFresh_concat_iff, ← ih hprev, calls_concat]
    cases x with
    | addRequest digest signers signers_ne retTx now =>
      refine ((sound_calls hash n t cs hprev).keeps_addRequest_all_iff hnd signers signers_ne
        now).trans (and_congr_right fun _ => ?_)
      simp [FetchCall.added]
    | serveRequest digest payload =>
      simp [FetchCall.added, call, keeps_serveRequest_iff]
    | handleTimeouts now readings =>
      simp only [FetchCall.added, call, handleTimeouts, keeps_retryAll_iff]
      simp [Keeps]

/-- In every run in which each call brings its own return channel: a payload on a channel hashes
to the digest requested with it, every pending digest has a timeout queued, an error is the
answer only after five requests sent for the channel, and no channel is dropped unanswered
exactly if no request is added for a digest that is still pending. -/
theorem fetches_answered (hash : P → D) (n t : ℕ) (cs : List (FetchCall A C D P))
    (hdistinct : ((requests cs).map Prod.snd).Nodup) :
    (∀ c d p, .answered c d (.ok p) ∈ ((new n t : BatchRequester A C D P).calls hash cs).log →
      (d, c) ∈ requests cs ∧ hash p = d) ∧
    (∀ d, ((new n t : BatchRequester A C D P).calls hash cs).digestToState d ≠ none →
      d ∈ ((new n t : BatchRequester A C D P).calls hash cs).timeouts.map Prod.snd) ∧
    (∀ c d before, before ++ [.answered c d (.error .couldNotGetData)] <+:
        ((new n t : BatchRequester A C D P).calls hash cs).log →
      before.countP (Notice.requestsFor c) = 5) ∧
    ((∀ e ∈ requests cs, ((new n t : BatchRequester A C D P).calls hash cs).Keeps e.2) ↔
      AddsFresh hash (new n t : BatchRequester A C D P) cs) := by
  have h := sound_calls hash n t cs hdistinct
  refine ⟨h.fitting, fun d hd => ?_, h.patient, keeps_calls_iff hash n t cs hdistinct⟩
  exact (h.queued d hd).resolve_right List.not_mem_nil

/-- One fetch that is served: its channel is answered. -/
theorem fetches_answered_served :
    ((new 1 1000 : BatchRequester ℕ ℕ ℕ ℕ).calls id
      [.addRequest 7 [1, 2] (by decide) 10 0, .serveRequest 7 7]).Keeps 10 := by
  have hfresh : AddsFresh id (new 1 1000 : BatchRequester ℕ ℕ ℕ ℕ)
      (([] ++ [.addRequest 7 [1, 2] (by decide) 10 0]) ++ [.serveRequest 7 7]) := by
    rw [addsFresh_concat_iff, addsFresh_concat_iff]
    refine ⟨⟨fun before d l hl c now hpre => ?_, ?_⟩, ?_⟩
    · exact absurd (List.prefix_nil.mp hpre) (by simp)
    · exact fun _ _ => rfl
    · exact fun e he => absurd he (by simp [FetchCall.added])
  exact (fetches_answered id 1 1000 _ (by decide)).2.2.2.mpr hfresh (7, 10) (by decide)

/-- A second request for a pending digest overwrites the first, whose channel is dropped with no
answer on it. -/
theorem addRequest_drops_pending :
    ¬ ((new 1 1000 : BatchRequester ℕ ℕ ℕ ℕ).calls id
      [.addRequest 7 [1, 2] (by decide) 10 0, .addRequest 7 [1, 2] (by decide) 11 5]).Keeps 10 := by
  intro h
  rcases (keeps_addRequest_iff _ 7 [1, 2] (by decide) 11 5).mp h with heq | ⟨d', s, hd, hs, -⟩ |
    ⟨d', a, ha⟩
  · exact absurd heq (by decide)
  · exact absurd hs (by simp [call, addRequest, BatchRequesterState.nextRequestPeers,
      BatchRequesterState.new, new, Function.update_of_ne hd])
  · exact absurd ha (by simp [call, addRequest, BatchRequesterState.nextRequestPeers,
      BatchRequesterState.new, new])

end BatchRequester

end Anthemius.QuorumStore

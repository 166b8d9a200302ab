import Anthemius.EntryMaps
import Anthemius.ProofQueues

/-!
# The cache of batches

Batches are kept in a cache until they expire. Each author has a quota of bytes in memory and
another one in the database, and a batch that does not fit into memory is kept without its
payload.
-/
namespace Anthemius.QuorumStore

open EntryMaps

structure PersistedValue (A P : Type) where
  maybePayload : Option P
  expiration : LogicalTime
  author : A
  numBytes : ℕ
  deriving DecidableEq

namespace PersistedValue
variable {A P : Type}

def removePayload (value : PersistedValue A P) : PersistedValue A P :=
  { value with maybePayload := none }

end PersistedValue

inductive StorageMode
  | persistedOnly
  | memoryAndPersisted
  deriving DecidableEq

def payloadStorageMode {A P : Type} (value : PersistedValue A P) : StorageMode :=
  match value.maybePayload with
  | some _ => .memoryAndPersisted
  | none => .persistedOnly

inductive SaveError
  | storageQuotaExceeded
  | incorrectExpiration
  deriving DecidableEq

def checkedSub (a b : ℕ) : Except Panic ℕ := if b ≤ a then .ok (a - b) else .error .underflow

def assertThat (condition : Prop) [Decidable condition] : Except Panic Unit :=
  if condition then .ok () else .error .assertion

structure QuotaManager where
  memoryBalance : ℕ
  dbBalance : ℕ
  memoryQuota : ℕ
  dbQuota : ℕ
  deriving DecidableEq

namespace QuotaManager

def new (maxDbBalance maxMemoryBalance : ℕ) : Except Panic QuotaManager := do
  assertThat (maxMemoryBalance ≤ maxDbBalance)
  pure ⟨0, 0, maxMemoryBalance, maxDbBalance⟩

/-- The balance in the database is compared with its quota only for a batch that does not fit
into memory. -/
def updateQuota (quota : QuotaManager) (numBytes : ℕ) :
    Except Panic (Except SaveError (QuotaManager × StorageMode)) := do
  let memory ← checkedAdd quota.memoryBalance numBytes
  let db ← checkedAdd quota.dbBalance numBytes
  if memory ≤ quota.memoryQuota then
    pure (.ok ({ quota with memoryBalance := memory, dbBalance := db }, .memoryAndPersisted))
  else if db ≤ quota.dbQuota then
    pure (.ok ({ quota with dbBalance := db }, .persistedOnly))
  else pure (.error .storageQuotaExceeded)

def freeQuota (quota : QuotaManager) (numBytes : ℕ) : StorageMode → Except Panic QuotaManager
  | .persistedOnly => do
    let db ← checkedSub quota.dbBalance numBytes
    pure { quota with dbBalance := db }
  | .memoryAndPersisted => do
    let memory ← checkedSub quota.memoryBalance numBytes
    let db ← checkedSub quota.dbBalance numBytes
    pure { quota with memoryBalance := memory, dbBalance := db }

end QuotaManager

structure BatchReader (D A P : Type) where
  epoch : ℕ
  lastCertifiedRound : ℕ
  dbCache : List (D × PersistedValue A P)
  peerQuota : A → Option QuotaManager
  /-- The digests that expire with a round. -/
  expirations : List (ℕ × D)
  batchExpiryRoundGapBehindLatestCertified : ℕ
  batchExpiryRoundGapBeyondLatestCertified : ℕ
  expiryGraceRounds : ℕ
  memoryQuota : ℕ
  dbQuota : ℕ

namespace BatchReader
variable {D A P : Type} [DecidableEq D] [DecidableEq A]

def setQuota (r : BatchReader D A P) (author : A) (quota : QuotaManager) : BatchReader D A P :=
  { r with peerQuota := Function.update r.peerQuota author (some quota) }

def freeQuota (r : BatchReader D A P) (value : PersistedValue A P) :
    Except Panic (BatchReader D A P) :=
  match r.peerQuota value.author with
  | none => .error .noQuotaManager
  | some quota => do
    let quota ← quota.freeQuota value.numBytes (payloadStorageMode value)
    pure (r.setQuota value.author quota)

/-- What a replaced batch took is given back. -/
def freePrevious (r : BatchReader D A P) (prev : Option (PersistedValue A P)) :
    Except Panic (BatchReader D A P) :=
  match prev with
  | some value => r.freeQuota value
  | none => .ok r

def insertCache (r : BatchReader D A P) (digest : D) (value : PersistedValue A P)
    (mode : StorageMode) : Except Panic (BatchReader D A P) := do
  let value := if mode = .persistedOnly then value.removePayload else value
  let r' ← { r with dbCache := set digest value r.dbCache }.freePrevious (get digest r.dbCache)
  pure { r' with expirations := (value.expiration.round, digest) :: r'.expirations }

/-- The new batch is charged before the replaced one is given back. -/
def updateCache (r : BatchReader D A P) (digest : D) (value : PersistedValue A P) :
    Except Panic (BatchReader D A P × Except SaveError Unit) := do
  let fresh ← QuotaManager.new r.dbQuota r.memoryQuota
  let quota := (r.peerQuota value.author).getD fresh
  match ← quota.updateQuota value.numBytes with
  | .error err => pure (r.setQuota value.author quota, .error err)
  | .ok (quota, mode) =>
    let r' ← (r.setQuota value.author quota).insertCache digest value mode
    pure (r', .ok ())

/-- The expiration is of the epoch of the reader and not too far from its round. -/
def inWindow (r : BatchReader D A P) (expiration : LogicalTime) : Except Panic Bool :=
  if expiration.epoch = r.epoch then do
    let latest ← checkedAdd expiration.round r.batchExpiryRoundGapBehindLatestCertified
    if r.lastCertifiedRound ≤ latest then
      let bound ← checkedAdd r.lastCertifiedRound r.batchExpiryRoundGapBeyondLatestCertified
      pure (expiration.round ≤ bound)
    else pure false
  else .ok false

/-- The reader has the digest with this expiration or a later one. -/
def alreadyHas (r : BatchReader D A P) (digest : D) (expiration : LogicalTime) : Bool :=
  match get digest r.dbCache with
  | some entry => expiration.round ≤ entry.expiration.round
  | none => false

def expiredRound (r : BatchReader D A P) (certifiedTime : LogicalTime) : ℕ :=
  certifiedTime.round - r.expiryGraceRounds

/-- The set of digests that expire with a round. -/
def expiredDigests (r : BatchReader D A P) (round : ℕ) : List D :=
  ((r.expirations.filter (·.1 ≤ round)).map Prod.snd).dedup

/-- A batch may have been saved again with a later expiration. -/
def clearDigest (round : ℕ) (digest : D) (r : BatchReader D A P) :
    Except Panic (BatchReader D A P × Bool) :=
  match get digest r.dbCache with
  | none => .error .notInCache
  | some value =>
    if value.expiration.round ≤ round then do
      let r' ← { r with dbCache := erase digest r.dbCache }.freeQuota value
      pure (r', true)
    else .ok (r, false)

/-- The reader before its content is read from the database. -/
def empty (epoch lastCertifiedRound gapBehind gapBeyond graceRounds memoryQuota dbQuota : ℕ) :
    BatchReader D A P where
  epoch := epoch
  lastCertifiedRound := lastCertifiedRound
  dbCache := []
  peerQuota := fun _ => none
  expirations := []
  batchExpiryRoundGapBehindLatestCertified := gapBehind
  batchExpiryRoundGapBeyondLatestCertified := gapBeyond
  expiryGraceRounds := graceRounds
  memoryQuota := memoryQuota
  dbQuota := dbQuota

end BatchReader

end Anthemius.QuorumStore

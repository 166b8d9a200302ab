import Anthemius.MempoolCalls
import Mathlib.Data.Nat.Pairing

/-!
# Runs of the mempool

The indexes match the stored transactions after every sequence of calls.
-/
namespace Anthemius.Mempool

/-- Only transactions of the world are inserted. -/
def StoreCall.Inserts {P : Type} (world : MempoolTransaction P → Prop) : StoreCall P → Prop
  | .insert txn _ => world txn
  | .commitTransaction _ _ | .rejectTransaction _ _ _ | .readTimeline _ _ | .gc _ _ => True

theorem StoreCall.inserts_any {P : Type} (call : StoreCall P) : call.Inserts fun _ => True := by
  cases call <;> trivial

namespace TransactionStore
variable {P : Type} {s s' : TransactionStore P} {world : MempoolTransaction P → Prop}

/-! ## One call -/

/-- What a call does to the view of the store. -/
inductive Performs (s : TransactionStore P) : StoreCall P → TransactionStore P → Prop
  | same (call : StoreCall P) : Performs s call s
  | insert {txn : MempoolTransaction P} {choice : ℕ} {status : MempoolStatus}
    {s₁ s' : TransactionStore P} (hreplaces : s.Replaces txn s₁)
    (hremoves : s.Removes s₁ {txn.pointer}) (hinserts : s₁.Inserts txn status s') :
    Performs s (.insert txn choice) s'
  | commit {account : AccountAddress} {sequenceNumber : ℕ} {s' : TransactionStore P}
    (hcommits : s.Commits s' account (s.committedNumber account sequenceNumber)) :
    Performs s (.commitTransaction account sequenceNumber) s'
  | reject {account : AccountAddress} {sequenceNumber : ℕ} {hash : HashValue}
    {s' : TransactionStore P} (hstored : (account, sequenceNumber) ∈ s.stored)
    (hhash : s.hashIndex hash = some (account, sequenceNumber))
    (hremoves : s.Removes s' {(account, sequenceNumber)}) :
    Performs s (.rejectTransaction account sequenceNumber hash) s'
  | gc {now : ℕ} {bySystemTtl : Bool} {s' : TransactionStore P}
    (hcollects : s.Collects s' (s.expired (gcKey bySystemTtl) now)) :
    Performs s (.gc now bySystemTtl) s'

theorem Indexed.performs [DecidableEq P] {call : StoreCall P} (h : s.Consistent world)
    (hworld : call.Inserts world) (hs : s.perform call = some s') :
    s'.Consistent world ∧ s.Performs call s' := by
  cases call with
  | insert txn choice =>
    obtain ⟨⟨status, s'⟩, hinsert, rfl⟩ := Option.map_eq_some_iff.mp hs
    obtain ⟨rfl, -⟩ | ⟨s₁, hreplaces, hnew⟩ := insert_cases hinsert
    · exact ⟨h, .same _⟩
    · obtain ⟨hindexed, hremoves⟩ := hreplaces.removes h
      have hfresh : txn.pointer ∉ s₁.stored := by
        rw [hremoves.stored]
        exact fun hin => hin.2 rfl
      obtain ⟨hconsistent, hinserts⟩ := hindexed.inserts hworld hfresh hnew
      exact ⟨hconsistent, .insert hreplaces hremoves hinserts⟩
  | commitTransaction account sequenceNumber =>
    obtain ⟨hconsistent, hcommits⟩ := h.commits hs
    exact ⟨hconsistent, .commit hcommits⟩
  | rejectTransaction account sequenceNumber hash =>
    cases hs
    obtain ⟨hconsistent, heq | ⟨hhash, hstored, hremoves⟩⟩ := h.rejects account sequenceNumber hash
    · rw [heq]
      exact ⟨h, .same _⟩
    · exact ⟨hconsistent, .reject hstored hhash hremoves⟩
  | readTimeline timelineId count =>
    obtain ⟨_, -, rfl⟩ := Option.map_eq_some_iff.mp hs
    exact ⟨h, .same _⟩
  | gc now bySystemTtl =>
    cases hs
    obtain ⟨hconsistent, hcollects⟩ := h.gc now bySystemTtl
    exact ⟨hconsistent, .gc hcollects⟩

/-! ## Capacities -/

/-- The store is within its capacities. -/
structure Bounded (s : TransactionStore P) : Prop where
  all : s.transactions.length ≤ s.capacity
  account : ∀ address, (s.accountTransactions address).length ≤ s.capacityPerUser

theorem mem_accountTransactions {t : MempoolTransaction P} {address : AccountAddress} :
    t ∈ s.accountTransactions address ↔ t ∈ s.transactions ∧ t.getSender = address := by
  rw [accountTransactions, List.mem_filter, decide_eq_true_eq]

theorem Indexed.unique_account (h : s.Consistent world) (address : AccountAddress) :
    Unique (s.accountTransactions address) :=
  h.unique.sublist (List.filter_sublist.map _)

theorem Shrinks.bounded (h : s.Shrinks s') (hindexed : s'.Consistent world) (hs : s.Bounded) :
    s'.Bounded := by
  have hcapacity : s'.capacity = s.capacity := congrArg Prod.fst h.limits
  have hperUser : s'.capacityPerUser = s.capacityPerUser := congrArg (·.2.2.1) h.limits
  constructor
  · rw [hcapacity]
    refine le_trans (hindexed.unique.length_le fun t ht => ?_) hs.all
    obtain ⟨a, ha, heq⟩ := h.bodies t ht
    exact ⟨a, ha, congrArg (fun t => t.pointer) heq⟩
  · intro address
    rw [hperUser]
    refine le_trans ((hindexed.unique_account address).length_le fun t ht => ?_)
      (hs.account address)
    obtain ⟨ht, haddress⟩ := mem_accountTransactions.mp ht
    obtain ⟨a, ha, heq⟩ := h.bodies t ht
    have hsender : a.getSender = t.getSender := congrArg (fun t => t.getSender) heq
    exact ⟨a, mem_accountTransactions.mpr ⟨ha, hsender.trans haddress⟩,
      congrArg (fun t => t.pointer) heq⟩

theorem Commits.shrinks {account : AccountAddress} {number : ℕ} (h : s.Commits s' account number) :
    (s.withNumber account number).Shrinks s' := by
  obtain ⟨cleaned, last, hremoves, hprocesses⟩ := h
  exact hremoves.shrinks.trans hprocesses.reorders.shrinks

theorem Stores.bodies {cleaned stored : TransactionStore P} {txn : MempoolTransaction P}
    {last : ℕ} (h : cleaned.Stores stored txn)
    (hprocesses : stored.Processes s' txn.getSender txn.accountSequenceNumberType.minSeq last)
    {t : MempoolTransaction P} (ht : t ∈ s'.transactions) :
    ∃ a, (a = txn ∨ a ∈ cleaned.transactions) ∧ a.getSender = t.getSender ∧
      a.pointer = t.pointer := by
  obtain ⟨a, ha, heq⟩ := hprocesses.reorders.shrinks.bodies t ht
  exact ⟨a, (h.transactions a).mp ha, congrArg (fun t => t.getSender) heq,
    congrArg (fun t => t.pointer) heq⟩

theorem Inserts.bounded {txn : MempoolTransaction P} {status : MempoolStatus}
    (h : s.Inserts txn status s') (hindexed : s'.Consistent world) (hs : s.Bounded) :
    s'.Bounded := by
  cases h with
  | full out hout hcode hfull hremoves => exact hremoves.shrinks.bounded hindexed hs
  | tooMany out hout hcode hremoves => exact hremoves.shrinks.bounded hindexed hs
  | @accepted cleaned stored _ out last hout hcode hremoves hroom hcapacity hstores hprocesses =>
    have hlimits : s'.limits = cleaned.limits := hprocesses.reorders.limits.trans hstores.limits
    have hall : s'.capacity = cleaned.capacity := congrArg Prod.fst hlimits
    have hperUser : s'.capacityPerUser = cleaned.capacityPerUser :=
      congrArg (·.2.2.1) hlimits
    have hsame : cleaned.capacityPerUser = s.capacityPerUser :=
      congrArg (·.2.2.1) hremoves.shrinks.limits
    constructor
    · have hle : s'.transactions.length ≤ (txn :: cleaned.transactions).length := by
        refine hindexed.unique.length_le fun t ht => ?_
        obtain ⟨a, ha, -, hpointer⟩ := hstores.bodies hprocesses ht
        exact ⟨a, List.mem_cons.mpr ha, hpointer⟩
      rw [List.length_cons] at hle
      omega
    · intro address
      by_cases haddress : address = txn.getSender
      · subst haddress
        have hle : (s'.accountTransactions txn.getSender).length ≤
            (txn :: cleaned.accountTransactions txn.getSender).length := by
          refine (hindexed.unique_account _).length_le fun t ht => ?_
          obtain ⟨ht, hsender⟩ := mem_accountTransactions.mp ht
          obtain ⟨a, ha, ha', hpointer⟩ := hstores.bodies hprocesses ht
          refine ⟨a, List.mem_cons.mpr (ha.imp_right fun ha => ?_), hpointer⟩
          exact mem_accountTransactions.mpr ⟨ha, ha'.trans hsender⟩
        rw [List.length_cons] at hle
        omega
      · have hle : (s'.accountTransactions address).length ≤
            (s.accountTransactions address).length := by
          refine (hindexed.unique_account _).length_le fun t ht => ?_
          obtain ⟨ht, hsender⟩ := mem_accountTransactions.mp ht
          obtain ⟨a, ha, ha', hpointer⟩ := hstores.bodies hprocesses ht
          have hold : a ∈ cleaned.transactions := by
            refine ha.resolve_left ?_
            rintro rfl
            exact haddress (ha'.trans hsender).symm
          refine ⟨a, mem_accountTransactions.mpr ⟨?_, ha'.trans hsender⟩, hpointer⟩
          exact ((hremoves.transactions a).mp hold).1
        have hbound := hs.account address
        omega

theorem Performs.bounded {call : StoreCall P} (h : s.Performs call s')
    (hbefore : s.Consistent world) (hindexed : s'.Consistent world) (hs : s.Bounded) :
    s'.Bounded := by
  cases h with
  | same => exact hs
  | insert hreplaces hremoves hinserts =>
    exact hinserts.bounded hindexed (hremoves.shrinks.bounded (hreplaces.removes hbefore).1 hs)
  | commit hcommits => exact hcommits.shrinks.bounded hindexed ⟨hs.all, hs.account⟩
  | reject hstored hhash hremoves => exact hremoves.shrinks.bounded hindexed hs
  | gc hcollects => exact hcollects.shrinks.bounded hindexed hs

/-- Without one of its transactions the store can only be full of bytes. -/
theorem Indexed.not_isFull_discard {t : MempoolTransaction P} (h : s.Consistent world)
    (hs : s.Bounded) (ht : t ∈ s.transactions)
    (hbytes : s.sizeBytes - t.getEstimatedBytes s.overheadBytes < s.capacityBytes) :
    ¬ (s.discard t).isFull = true := by
  have hlength : (s.discard t).systemTtlIndex.length = (without s.transactions t.pointer).length :=
    (h.discard ht).length_systemTtlIndex
  have hlt : (without s.transactions t.pointer).length < s.transactions.length := by
    refine List.length_filter_lt_length_iff_exists.mpr ⟨t, ht, ?_⟩
    rw [decide_eq_true_eq]
    exact fun hne => hne rfl
  have hsize : (s.discard t).sizeBytes = s.sizeBytes - t.getEstimatedBytes s.overheadBytes := rfl
  have hcapacity : (s.discard t).capacity = s.capacity := rfl
  have hcapacityBytes : (s.discard t).capacityBytes = s.capacityBytes := rfl
  have hall := hs.all
  rw [isFull, Bool.or_eq_true, not_or, decide_eq_true_eq, decide_eq_true_eq]
  omega

/-- Without the older version there is room for the transaction. -/
def CanReplace (s : TransactionStore P) (txn : MempoolTransaction P) : Prop :=
  ∀ current, s.getMempoolTxn txn.pointer = some current → Updates txn current →
    s.sizeBytes - current.getEstimatedBytes s.overheadBytes < s.capacityBytes

theorem CanReplace.not_isFull {current txn : MempoolTransaction P} (h : s.CanReplace txn)
    (hbefore : s.Consistent world) (hbounded : s.Bounded)
    (hget : s.getMempoolTxn txn.pointer = some current) (hupdates : Updates txn current) :
    ¬ (s.discard current).isFull = true :=
  hbefore.not_isFull_discard hbounded (hbefore.getMempoolTxn_eq_some.mp hget).1
    (h current hget hupdates)

/-- An account that still has as many transactions as it can have has lost none. -/
theorem Bounded.not_mem_of_length_le {out : Set TxnPointer} {p : TxnPointer} (hs : s.Bounded)
    (hremoves : s.Removes s' out) (hindexed : s'.Consistent world)
    (hmany : s'.capacityPerUser ≤ (s'.accountTransactions p.1).length) (hp : p ∈ s.stored) :
    p ∉ out := by
  obtain ⟨t, ht, rfl⟩ := hp
  intro hout
  have hunique : Unique (t :: s'.accountTransactions t.getSender) := by
    refine List.nodup_cons.mpr ⟨fun hmem => ?_, hindexed.unique_account _⟩
    obtain ⟨a, ha, heq⟩ := List.mem_map.mp hmem
    have hnot := ((hremoves.transactions a).mp (mem_accountTransactions.mp ha).1).2
    exact hnot (heq ▸ hout)
  have hle : (t :: s'.accountTransactions t.getSender).length ≤
      (s.accountTransactions t.getSender).length := by
    refine hunique.length_le fun a ha => ?_
    obtain rfl | ha := List.mem_cons.mp ha
    · exact ⟨a, mem_accountTransactions.mpr ⟨ht, rfl⟩, rfl⟩
    · obtain ⟨ha, hsender⟩ := mem_accountTransactions.mp ha
      exact ⟨a, mem_accountTransactions.mpr ⟨((hremoves.transactions a).mp ha).1, hsender⟩, rfl⟩
  have hbound := hs.account t.getSender
  have hperUser : s'.capacityPerUser = s.capacityPerUser :=
    congrArg (·.2.2.1) hremoves.shrinks.limits
  change s'.capacityPerUser ≤ (s'.accountTransactions t.getSender).length at hmany
  rw [List.length_cons] at hle
  omega

/-! ## All runs -/

/-- The stores of all runs whose calls meet a condition. -/
inductive Reaches [DecidableEq P] (condition : TransactionStore P → StoreCall P → Prop) :
    TransactionStore P → Prop
  | new (config : MempoolConfig) (overheadBytes : ℕ) {s : TransactionStore P}
    (h : TransactionStore.new config overheadBytes = some s) : Reaches condition s
  | perform {s s' : TransactionStore P} (h : Reaches condition s) (call : StoreCall P)
    (hcondition : condition s call) (hs : s.perform call = some s') : Reaches condition s'

theorem Bounded.new {config : MempoolConfig} {overheadBytes : ℕ}
    (h : TransactionStore.new config overheadBytes = some s) : s.Bounded := by
  obtain ⟨timelineIndex, -, heq⟩ := Option.bind_eq_some_iff.mp h
  cases heq
  exact ⟨Nat.zero_le _, fun _ => Nat.zero_le _⟩

theorem Reaches.consistent [DecidableEq P] {condition : TransactionStore P → StoreCall P → Prop}
    (h : Reaches condition s) (hworld : ∀ s call, condition s call → call.Inserts world) :
    s.Consistent world ∧ s.Bounded := by
  induction h with
  | new config overheadBytes h => exact ⟨.new h, .new h⟩
  | perform h call hcondition hs ih =>
    obtain ⟨hconsistent, hbounded⟩ := ih
    obtain ⟨hindexed, hperforms⟩ := hconsistent.performs (hworld _ _ hcondition) hs
    exact ⟨hindexed, hperforms.bounded hconsistent hindexed hbounded⟩

/-- The indexes match the stored transactions. -/
structure Matches (s : TransactionStore P) : Prop where
  systemTtl : ∀ key, key ∈ s.systemTtlIndex ↔ ∃ t ∈ s.transactions, t.systemTtlKey = key
  expirationTime : ∀ key, key ∈ s.expirationTimeIndex ↔
    ∃ t ∈ s.transactions, t.expirationTimeKey = key
  hash : ∀ hash p, s.hashIndex hash = some p ↔
    ∃ t ∈ s.transactions, t.getCommittedHash = hash ∧ t.pointer = p
  priority : ∀ key ∈ s.priorityIndex, ∃ t ∈ s.transactions, t.queueKey = key
  parked : s.parked ⊆ s.stored
  timeline : ∀ bucket id p, s.timelineIndex.Holds bucket id p → p ∈ s.stored
  ready : ∀ t ∈ s.transactions, ∀ id, t.timelineState = .ready id ↔
    s.timelineIndex.Holds (s.timelineIndex.getTimeline t.rankingScore) id t.pointer
  readyOnce : ∀ bucket id bucket' id' p, s.timelineIndex.Holds bucket id p →
    s.timelineIndex.Holds bucket' id' p → bucket = bucket' ∧ id = id'
  size : s.sizeBytes = (s.transactions.map (·.getEstimatedBytes s.overheadBytes)).sum

theorem Reaches.matches_stored [DecidableEq P] (hdistinct : Distinct world)
    (hunready : Unready world) (h : Reaches (fun _ call => call.Inserts world) s) : s.Matches := by
  obtain ⟨hindexed, -⟩ := h.consistent fun _ _ hcall => hcall
  have htimeline := hindexed.timeline hunready
  constructor
  case systemTtl => exact fun key => (hindexed.systemTtl key).trans (iff_of_eq (true_and _))
  case expirationTime =>
    exact fun key => (hindexed.expirationTime key).trans (iff_of_eq (true_and _))
  case hash => exact hindexed.hash hdistinct
  case priority => exact hindexed.priority
  case parked => exact hindexed.parked_subset_stored
  case timeline =>
    intro bucket id p hholds
    obtain ⟨t, ht, hpointer, -⟩ := (htimeline bucket id p).mp hholds
    exact ⟨t, ht, hpointer⟩
  case ready =>
    intro t ht id
    rw [htimeline]
    constructor
    · exact fun hstate => ⟨t, ht, rfl, hstate, rfl⟩
    · rintro ⟨a, ha, hpointer, hstate, -⟩
      rw [← hindexed.unique.eq ha ht hpointer]
      exact hstate
  case readyOnce =>
    intro bucket id bucket' id' p hholds hholds'
    obtain ⟨t, ht, hpointer, hstate, hbucket⟩ := (htimeline bucket id p).mp hholds
    obtain ⟨t', ht', hpointer', hstate', hbucket'⟩ := (htimeline bucket' id' p).mp hholds'
    obtain rfl := hindexed.unique.eq ht ht' (hpointer.trans hpointer'.symm)
    rw [hstate] at hstate'
    exact ⟨hbucket.symm.trans hbucket', TimelineState.ready.inj hstate'⟩
  case size => exact hindexed.size

/-! A run with one account. -/

namespace SmallPool

def config : MempoolConfig :=
  { capacity := 2
    capacityBytes := 100
    capacityPerUser := 2
    sharedMempoolMaxBatchBytes := 100
    broadcastBuckets := [0] }

/-- The hash of a transaction tells its fields. -/
def transfer (sequenceNumber price : ℕ) (state : TimelineState) (number : ℕ) :
    MempoolTransaction Unit :=
  { txn :=
      { sender := 1
        sequenceNumber := sequenceNumber
        payload := ()
        maxGasAmount := 5
        gasUnitPrice := price
        expirationTimestampSecs := 60
        rawTxnBytesLen := 10
        committedHash := Nat.pair sequenceNumber price }
    expirationTime := 10
    rankingScore := price
    timelineState := state
    accountSequenceNumberType := .sequential number }

/-- The transactions of the account. -/
def Transfers (state : TimelineState) (t : MempoolTransaction Unit) : Prop :=
  ∃ sequenceNumber price number, t = transfer sequenceNumber price state number

theorem distinct_transfers (state : TimelineState) : Distinct (Transfers state) := by
  rintro _ _ ⟨sequenceNumber, price, number, rfl⟩ ⟨sequenceNumber', price', number', rfl⟩ hhash
  obtain ⟨rfl, rfl⟩ := Nat.pair_eq_pair.mp hhash
  rfl

end SmallPool

open SmallPool in
/-- Two transactions come in, and the first one is committed. -/
theorem Reaches.matches_committed : ∃ s : TransactionStore Unit,
    s.transactions = [(transfer 1 3 .notReady 0).withState (.ready 2)] ∧ s.Matches := by
  have hrun : Reaches (fun _ call => call.Inserts (Transfers .notReady)) _ :=
    (((Reaches.new config 1 rfl).perform (.insert (transfer 1 3 .notReady 0) 0) ⟨_, _, _, rfl⟩
      rfl).perform (.insert (transfer 0 3 .notReady 0) 0) ⟨_, _, _, rfl⟩
      rfl).perform (.commitTransaction 1 0) trivial rfl
  refine ⟨_, rfl, hrun.matches_stored (distinct_transfers _) ?_⟩
  rintro _ id ⟨_, _, _, rfl⟩ hstate
  cases hstate

open SmallPool in
/-- A transaction that comes in as ready is in no timeline. -/
theorem Reaches.matches_ready_fails : ∃ s : TransactionStore Unit,
    Distinct (Transfers (.ready 5)) ∧
      Reaches (fun _ call => call.Inserts (Transfers (.ready 5))) s ∧ ¬ s.Matches := by
  refine ⟨_, distinct_transfers _, (Reaches.new config 1 rfl).perform
    (.insert (transfer 0 3 (.ready 5) 0) 0) ⟨_, _, _, rfl⟩ rfl, fun hmatches => ?_⟩
  have hholds := (hmatches.ready (transfer 0 3 (.ready 5) 0) List.mem_cons_self 5).mp rfl
  obtain ⟨index, hindex, hmem⟩ := hholds
  cases hindex
  cases hmem

/-! ## Collections and limits -/

/-- The timeline has an entry of the transaction. -/
def timed (s : TransactionStore P) : Set TxnPointer :=
  {p | ∃ bucket id, s.timelineIndex.Holds bucket id p}

theorem Consistent.timed_eq_ready (h : s.Consistent world) (hunready : Unready world) :
    s.timed = s.ready := by
  ext p
  constructor
  · rintro ⟨bucket, id, hholds⟩
    obtain ⟨t, ht, hpointer, hstate, -⟩ := (h.timeline hunready bucket id p).mp hholds
    exact ⟨t, ht, hpointer, by rw [MempoolTransaction.isReady, hstate]⟩
  · rintro ⟨t, ht, hpointer, hready⟩
    unfold MempoolTransaction.isReady at hready
    split at hready
    next id hstate => exact ⟨_, id, (h.timeline hunready _ id p).mpr ⟨t, ht, hpointer, hstate, rfl⟩⟩
    all_goals cases hready

/-- Both collections remove exactly what has expired, and park what is behind it in its account.
The timeline loses the same transactions as the priority queue, if none came in as ready. -/
theorem Reaches.gc_exact [DecidableEq P] (h : Reaches (fun _ call => call.Inserts world) s)
    (now : ℕ) (bySystemTtl : Bool) :
    s.Collects (s.gc now bySystemTtl) (s.expired (gcKey bySystemTtl) now) ∧
      (Unready world → ∀ p, p ∈ (s.gc now bySystemTtl).timed ↔ p ∈ s.timed ∧
        p ∉ s.expired (gcKey bySystemTtl) now ∧ ¬ Behind (s.expired (gcKey bySystemTtl) now) p) ∧
      ∀ t ∈ (s.gc now bySystemTtl).transactions, ¬ (gcKey bySystemTtl t).isExpired now = true := by
  obtain ⟨hindexed, -⟩ := h.consistent fun _ _ hcall => hcall
  obtain ⟨hafter, hcollects⟩ := hindexed.gc now bySystemTtl
  refine ⟨hcollects, fun hunready p => ?_,
    hcollects.not_expired fun t state => by cases bySystemTtl <;> rfl⟩
  rw [hafter.timed_eq_ready hunready, hindexed.timed_eq_ready hunready]
  exact hcollects.ready p

/-- A transaction that is kept for longer than the others. -/
def SmallPool.later : MempoolTransaction Unit :=
  { transfer 1 4 .notReady 0 with expirationTime := 20 }

open SmallPool in
/-- Of two transactions of an account the first one expires, and the other is parked. -/
theorem Reaches.gc_exact_two : ∃ s : TransactionStore Unit, (1, 1) ∈ s.timed ∧
    (1, 0) ∉ (s.gc 11 true).stored ∧ (1, 1) ∈ (s.gc 11 true).parked ∧
      (1, 1) ∉ (s.gc 11 true).timed := by
  obtain ⟨s, hrun, hstored⟩ : ∃ s : TransactionStore Unit,
      Reaches (fun _ call => call.Inserts fun t => t.timelineState = .notReady) s ∧
        s.transactions =
          [later.withState (.ready 2), (transfer 0 3 .notReady 0).withState (.ready 1)] :=
    ⟨_, ((Reaches.new config 1 rfl).perform (.insert (transfer 0 3 .notReady 0) 0) rfl rfl).perform
      (.insert later 0) rfl rfl, rfl⟩
  have hunready : Unready fun t : MempoolTransaction Unit => t.timelineState = .notReady :=
    fun t id ht hready => by cases ht.symm.trans hready
  have hlater : later.withState (.ready 2) ∈ s.transactions := by simp [hstored]
  have hexpired : (1, 0) ∈ s.expired (gcKey true) 11 :=
    ⟨(transfer 0 3 .notReady 0).withState (.ready 1), by simp [hstored], rfl, by decide⟩
  have hkept : (1, 1) ∉ s.expired (gcKey true) 11 := by
    rintro ⟨t, ht, hpointer, hkey⟩
    rw [hstored] at ht
    rcases List.mem_pair.mp ht with rfl | rfl
    · revert hkey
      decide
    · cases hpointer
  have hbehind : Behind (s.expired (gcKey true) 11) (1, 1) := ⟨_, hexpired, rfl, by decide⟩
  obtain ⟨hcollects, htimed, -⟩ := hrun.gc_exact 11 true
  refine ⟨s, ?_, fun h => ((hcollects.stored _).mp h).2 hexpired, (hcollects.parked _).mpr
    ⟨.inr ⟨⟨_, hlater, rfl⟩, hbehind⟩, hkept⟩, fun h => ((htimed hunready _).mp h).2.2 hbehind⟩
  rw [(hrun.consistent fun _ _ hcall => hcall).1.timed_eq_ready hunready]
  exact ⟨_, hlater, rfl, rfl⟩

open SmallPool in
theorem reaches_full :
    ∃ s : TransactionStore Unit, Reaches (fun _ _ => True) s ∧ s.transactions.length = 2 :=
  ⟨_, ((Reaches.new config 1 rfl).perform (.insert (transfer 0 3 .notReady 0) 0) trivial
    rfl).perform (.insert (transfer 1 4 .notReady 0) 0) trivial rfl, rfl⟩

/-- Neither limit on the number of transactions is exceeded. -/
theorem Reaches.within_capacity [DecidableEq P] (h : Reaches (fun _ _ => True) s) :
    s.transactions.length ≤ s.capacity ∧
      ∀ address, (s.accountTransactions address).length ≤ s.capacityPerUser := by
  obtain ⟨-, hbounded⟩ := h.consistent fun _ call _ => call.inserts_any
  exact ⟨hbounded.all, hbounded.account⟩

theorem Reaches.within_capacity_two : ∃ s : TransactionStore Unit, s.transactions.length = 2 ∧
    s.transactions.length ≤ s.capacity := by
  obtain ⟨s, hs, hlength⟩ := reaches_full
  exact ⟨s, hlength, hs.within_capacity.1⟩

end TransactionStore

end Anthemius.Mempool

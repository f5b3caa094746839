import Fluree.NameService.Apply
import Mathlib.Algebra.Ring.Nat

/-!
# Queued submissions

The commands of the per-branch queue (enqueue, apply the front, poison the front, evict cached
outcomes) and `apply`, which hands a command to its function.
-/

namespace Fluree.NameService

section

open Lib

def U64_MODULUS : ℕ := 2 ^ 64

variable (s : NameServiceState)

/-- The answer to a key that the cache or the branch's queue already holds. -/
def idempotencyAnswer (refKey : RefKey) (key : IdempotencyCacheKey)
    (bodyCid : ContentId) : Option Response :=
  match s.idempotency.lookup key with
  | some outcome =>
    if outcome.bodyCid ≠ bodyCid then some .bodyHashMismatch
    else
      match outcome with
      | .applied record => some (.idempotencyHit record)
      | .failed record => some (.idempotencyFailed record)
  | none =>
    ((s.queue refKey).find? (fun entry => entry.idempotency = some key)).map fun entry =>
      if entry.bodyCid = bodyCid then .inFlight refKey.ledgerId entry.queueId
      else .bodyHashMismatch

def globalDepth : ℕ := (s.queues.entries.map (fun e => e.2.length)).sum

variable (logIndex : ℕ)

def applyEnqueueCommand (args : QueueSubmission) :
    NameServiceState × Response :=
  let full := formatLedgerId args.ledgerId args.branch
  let refKey : RefKey := ⟨args.ledgerId, args.branch⟩
  if ¬ s.isKnown refKey then (s, .ledgerNotFound full)
  else if refKey ∈ s.retracted then (s, .ledgerRetracted full)
  else
    match args.idempotency.bind (fun key => idempotencyAnswer s refKey key args.bodyCid) with
    | some answer => (s, answer)
    | none =>
      if s.queueConfig.perBranchCap ≤ (s.queue refKey).length then
        (s, .queueFull full (s.queue refKey).length s.queueConfig.perBranchCap .perBranch)
      else if s.queueConfig.globalCap ≤ globalDepth s then
        (s, .queueFull full (globalDepth s) s.queueConfig.globalCap .global)
      else
        let entry : QueueEntry :=
          { queueId := s.nextQueueId
            enqueuedIndex := logIndex
            enqueuedAtMillis := args.appliedAtMillis
            idempotency := args.idempotency
            requestCid := args.requestCid
            bodyCid := args.bodyCid
            bodyKind := args.bodyKind }
        ({ s with
            recentlyCleared := s.recentlyCleared.erase refKey
            nextQueueId := (s.nextQueueId + 1) % U64_MODULUS
            queues := s.queues.insert refKey (s.queue refKey ++ [entry]) },
          .enqueued full s.nextQueueId)

/-- Check the worker's claim against the front of the queue and pop it. A marker left by an
administrative clear is consumed by the first claim that meets it. -/
def popValidatedFront (refKey : RefKey) (full : String)
    (requestedQueueId : ℕ) : NameServiceState × Except Response QueueEntry :=
  match s.recentlyCleared.lookup refKey with
  | some marker =>
    ({ s with recentlyCleared := s.recentlyCleared.erase refKey },
      .error (.queueDesync full requestedQueueId (.queueCleared marker.reason)))
  | none =>
    match s.queue refKey with
    | front :: rest =>
      if front.queueId = requestedQueueId then
        ({ s with queues := s.queues.insert refKey rest }, .ok front)
      else (s, .error (.queueDesync full requestedQueueId (.wrongFront front.queueId)))
    | [] =>
      (s, .error (.queueDesync full requestedQueueId
        (.invariantViolated "queue missing or empty without recently_cleared marker")))

def dropQueueIfEmpty (refKey : RefKey) : NameServiceState :=
  if s.queues.lookup refKey = some [] then { s with queues := s.queues.erase refKey } else s

/-- A keyed entry leaves its outcome in the cache, which holds the envelope; the envelope of a
keyless one is released at once. -/
def recordOutcome (entry : QueueEntry) (outcome : ApplyOutcome) :
    NameServiceState × Option ContentId :=
  match entry.idempotency with
  | some key => ({ s with idempotency := s.idempotency.insert key outcome }, none)
  | none => (s, some entry.requestCid)

variable (args : StagedHead)

/-- The new head of the branch; an existing entry keeps its index, source and children. -/
def advanceHead : NameServiceState :=
  let refKey : RefKey := ⟨args.ledgerId, args.branch⟩
  let prior := s.refs.lookup refKey
  { s with
    refs := s.refs.insert refKey
      { head := args.commitId
        t := args.commitT
        lastAdvancedAtMillis := args.appliedAtMillis
        lastAdvancedIndex := logIndex
        index := prior.bind (·.index)
        sourceBranch := prior.bind (·.sourceBranch)
        branches := (prior.map (·.branches)).getD 0 } }

def healRegistration (ledgerId branch : String) : NameServiceState :=
  match s.ledgers.lookup ledgerId with
  | some ledger =>
    if branch ∈ ledger.branches then s
    else
      { s with
        ledgers := s.ledgers.insert ledgerId
          { ledger with branches := ledger.branches ++ [branch] } }
  | none => s

/-- The worker's commit against the published head: a republished head completes the entry
without advancing, a commit that is not newer is refused with the head's `t`. -/
inductive HeadCheck where
  | advances
  | noopCompletion
  | notMonotonic (currentT : ℤ)

def checkHead : HeadCheck :=
  match s.refs.lookup ⟨args.ledgerId, args.branch⟩ with
  | none => .advances
  | some r =>
    if args.commitT = r.t ∧ r.head = args.commitId then .noopCompletion
    else if args.commitT ≤ r.t then .notMonotonic r.t
    else .advances

/-- The entry is consumed: the queue, the head, the registration and the cached outcome. -/
def completeHead (entry : QueueEntry)
    (noopCompletion : Bool) : NameServiceState × Response :=
  let refKey : RefKey := ⟨args.ledgerId, args.branch⟩
  let s := dropQueueIfEmpty s refKey
  let s := if noopCompletion then s else advanceHead s logIndex args
  let s := healRegistration s args.ledgerId args.branch
  let recorded := recordOutcome s entry (.applied
    { requestCid := entry.requestCid
      bodyCid := entry.bodyCid
      bodyKind := entry.bodyKind
      recordedAtMillis := args.appliedAtMillis
      head := args.commitId
      t := args.commitT
      recordedIndex := logIndex
      tally := args.tally
      flakeCount := args.flakeCount })
  (recorded.1,
    .headApplied (formatLedgerId args.ledgerId args.branch) args.commitId args.commitT recorded.2)

def applyHead :
    NameServiceState × Response :=
  let full := formatLedgerId args.ledgerId args.branch
  let refKey : RefKey := ⟨args.ledgerId, args.branch⟩
  if refKey ∈ s.retracted then (s, .ledgerRetracted full)
  else
    match popValidatedFront s refKey full args.queueId with
    | (s, .error response) => (s, response)
    | (s, .ok entry) =>
      match checkHead s args with
      | .notMonotonic currentT =>
        -- back to the front, for the worker to retry
        ({ s with queues := s.queues.insert refKey (entry :: s.queue refKey) },
          .queueDesync full args.queueId (.headNotMonotonic currentT args.commitT))
      | .noopCompletion => completeHead s logIndex args entry true
      | .advances => completeHead s logIndex args entry false

def applyPoisonQueueEntry (args : EntryPoisoning) :
    NameServiceState × Response :=
  let full := formatLedgerId args.ledgerId args.branch
  let refKey : RefKey := ⟨args.ledgerId, args.branch⟩
  match popValidatedFront s refKey full args.queueId with
  | (s, .error response) => (s, response)
  | (s, .ok entry) =>
    let recorded := recordOutcome (dropQueueIfEmpty s refKey) entry (.failed
      { requestCid := entry.requestCid
        bodyCid := entry.bodyCid
        reason := args.reason
        recordedIndex := logIndex
        recordedAtMillis := args.appliedAtMillis })
    (recorded.1, .poisoned full args.queueId args.reason recorded.2)

def EVICT_BATCH_SIZE : ℕ := 1024

/-- The order of eviction: by the time recorded, then by the log index. -/
def cmpExpired (a b : ℕ × ℕ × IdempotencyCacheKey) : Ordering :=
  (compare a.1 b.1).then (compare a.2.1 b.2.1)

/-- The keys one eviction removes. -/
def expiredKeys (σ : SortUnstable) (s : NameServiceState) (cutoffMillis : ℕ) :
    List IdempotencyCacheKey :=
  let expired := s.idempotency.entries.filterMap fun e =>
    if e.2.recordedAtMillis < cutoffMillis then
      some (e.2.recordedAtMillis, e.2.recordedIndex, e.1)
    else none
  ((σ.sort cmpExpired expired).take EVICT_BATCH_SIZE).map (·.2.2)

/-- Remove one key and note its envelope. -/
def evictKey (acc : KeyedMap IdempotencyCacheKey ApplyOutcome × List (String × ContentId))
    (key : IdempotencyCacheKey) :
    KeyedMap IdempotencyCacheKey ApplyOutcome × List (String × ContentId) :=
  match acc.1.lookup key with
  | some outcome => (acc.1.erase key, acc.2 ++ [(key.ledgerId, outcome.requestCid)])
  | none => (acc.1.erase key, acc.2)

def applyEvictIdempotency (σ : SortUnstable) (s : NameServiceState)
    (cutoffMillis markerCutoffMillis : ℕ) : NameServiceState × Response :=
  let expired := expiredKeys σ s cutoffMillis
  let evicted := expired.foldl evictKey (s.idempotency, [])
  ({ s with
      idempotency := evicted.1
      evictedIdempotencyCount := (s.evictedIdempotencyCount + expired.length) % U64_MODULUS
      recentlyCleared := KeyedMap.retain
        (fun _ marker => markerCutoffMillis ≤ marker.appliedAtMillis) s.recentlyCleared },
    .evictionApplied expired.length evicted.2)

/-- **One committed command.** -/
def apply (σ : SortUnstable) (s : NameServiceState) (command : Command) (logIndex : ℕ) :
    NameServiceState × Response :=
  match command with
  | .advanceIndexHead args => advanceIndexHead s args
  | .rewriteIndexHead args => rewriteIndexHead s args
  | .createLedger args => createLedger s logIndex args
  | .createBranch args => createBranch s logIndex args
  | .dropBranch ledgerId branch millis => dropBranch s ledgerId branch millis
  | .resetHead ledgerId branch snapshot millis => resetHead s ledgerId branch snapshot millis
  | .retractLedger ledgerId branch millis => retractLedger s ledgerId branch millis
  | .purgeBranch ledgerId branch millis => purgeBranch s ledgerId branch millis
  | .releaseContent _ => (s, .noOp)
  | .compareAndSetRef args => applyCompareAndSetRef s logIndex args
  | .pushStatus ledgerId expected new =>
    let pushed := applyVersionedPush StoredStatus.versioned s s.status ledgerId expected new
    ({ s with status := pushed.1 }, pushed.2)
  | .pushConfig args =>
    let pushed := applyVersionedPush StoredConfig.versioned s s.config args.ledgerId args.expected
      args.new
    ({ s with config := pushed.1 }, pushed.2)
  | .publishGraphSource name branch sourceType config dependencies =>
    applyPublishGraphSource s name branch sourceType config dependencies
  | .publishGraphSourceIndex name branch indexId indexT =>
    applyPublishGraphSourceIndex s name branch indexId indexT
  | .retractGraphSource name branch => applyRetractGraphSource s name branch
  | .enqueueCommand args => applyEnqueueCommand s logIndex args
  | .applyHead args => applyHead s logIndex args
  | .poisonQueueEntry args => applyPoisonQueueEntry s logIndex args
  | .evictIdempotency cutoff markerCutoff => applyEvictIdempotency σ s cutoff markerCutoff
  | .setWorkerEligibility args => applySetWorkerEligibility s args

end

/-!
## Reading the name service

The lookups of the name service over the replicated state: the record of a branch, its heads,
its status and its configuration. A ledger id is split first; one that does not split is an
error.
-/

structure NsRecord where
  ledgerId : String
  name : String
  branch : String
  commitHeadId : Option ContentId
  commitT : ℤ
  indexHeadId : Option ContentId
  indexT : ℤ
  defaultContext : Option ContentId
  retracted : Bool
  configId : Option ContentId
  sourceBranch : Option String
  branches : ℕ

/-- The record of a branch that was only just registered. -/
def NsRecord.new (name branch : String) : NsRecord where
  ledgerId := formatLedgerId name branch
  name := name
  branch := branch
  commitHeadId := none
  commitT := 0
  indexHeadId := none
  indexT := 0
  defaultContext := none
  retracted := false
  configId := none
  sourceBranch := none
  branches := 0

/-- The record with the head of the branch. -/
def NsRecord.withEntry (record : NsRecord) (entry : RefEntry) : NsRecord :=
  { record with
    commitHeadId := some entry.head
    commitT := entry.t
    indexHeadId := entry.index.map (·.head)
    indexT := (entry.index.map (·.t)).getD 0
    sourceBranch := entry.sourceBranch
    branches := entry.branches }

variable (s : NameServiceState)

def recordFromState (key : RefKey) : Option NsRecord :=
  if ¬ s.isKnown key then none
  else
    let record := NsRecord.new key.ledgerName key.branch
    let record := ((s.refs.lookup key).map record.withEntry).getD record
    some { record with retracted := key ∈ s.retracted }

def readBranch {α : Type} (ledgerId : String) (read : RefKey → α) : Except String α :=
  match splitLedgerId ledgerId with
  | .error e => .error e
  | .ok (name, branch) => .ok (read ⟨name, branch⟩)

variable (ledgerId : String)

def lookup : Except String (Option NsRecord) := readBranch ledgerId (recordFromState s)

/-- The commit or the index ref for readers; a retracted branch is gone for them. -/
def getRef (kind : RefKind) :
    Except String (Option RefValue) :=
  readBranch ledgerId fun key =>
    if (s.ledgers.lookup key.ledgerName).isNone then none
    else if key ∈ s.retracted then none
    else
      let entry := s.refs.lookup key
      match kind with
      | .commitHead => some ⟨entry.map (·.head), (entry.map (·.t)).getD 0⟩
      | .indexHead =>
        let index := entry.bind (·.index)
        some ⟨index.map (·.head), (index.map (·.t)).getD 0⟩

def getStatus : Except String (Option StoredStatus) :=
  readBranch ledgerId fun key =>
    if ¬ s.isKnown key then none
    else some ((s.status.lookup key.ledgerId).getD StoredStatus.initial)

def getConfig : Except String (Option StoredConfig) :=
  readBranch ledgerId fun key =>
    if ¬ s.isKnown key then none
    else some ((s.config.lookup key.ledgerId).getD StoredConfig.unborn)

end Fluree.NameService

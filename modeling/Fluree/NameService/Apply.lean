import Fluree.Lib.SortedMap
import Fluree.Lib.Slices
import Mathlib.Data.Finset.Basic

/-!
# The state of the replicated name service

The data of the raft state machine: which ledgers and branches exist, the head of each branch,
the queue of pending submissions per branch, the cache of idempotency outcomes and the markers
that administrative commands leave. Content ids, idempotency keys and the metadata trees of
status and configuration values are only compared for equality.
-/

namespace Fluree.NameService

section

open Lib

structure ContentId where
  digest : ℕ
deriving DecidableEq

def formatLedgerId (name branch : String) : String := name ++ ":" ++ branch

def DEFAULT_BRANCH : String := "main"

/-- Split `name[:branch]` at the first colon; the branch holds no colon. -/
def splitLedgerId (ledgerId : String) : Except String (String × String) :=
  let invalid := s!"Invalid ledger ID format '{ledgerId}': expected 'name' or 'name:branch'"
  let name := ledgerId.toList.takeWhile (· != ':')
  match ledgerId.toList.dropWhile (· != ':') with
  | [] => if name = [] then .error invalid else .ok (String.ofList name, DEFAULT_BRANCH)
  | _ :: branch =>
    if name = [] ∨ branch = [] then .error invalid
    else if ':' ∈ branch then .error invalid
    else .ok (String.ofList name, String.ofList branch)

/-- One branch of one ledger. -/
structure RefKey where
  ledgerName : String
  branch : String
deriving DecidableEq

def RefKey.ledgerId (key : RefKey) : String := formatLedgerId key.ledgerName key.branch

structure IndexState where
  head : ContentId
  t : ℤ
deriving DecidableEq

structure RefEntry where
  head : ContentId
  t : ℤ
  lastAdvancedAtMillis : ℕ
  lastAdvancedIndex : ℕ
  index : Option IndexState
  sourceBranch : Option String
  branches : ℕ
deriving DecidableEq

structure LedgerRecord where
  createdAtMillis : ℕ
  createdIndex : ℕ
  branches : List String

structure IdempotencyCacheKey where
  ledgerId : String
  key : String
deriving DecidableEq

inductive BodyKind where
  | jsonLdInsert | jsonLdUpsert | jsonLdUpdate | turtleInsert | turtleUpsert | trigUpsert | sparql
  | cypher | pushed | revert | merge | rebase
deriving DecidableEq

structure PolicyStats where
  executed : ℕ
  allowed : ℕ
deriving DecidableEq

structure RecordedReasoningTally where
  capped : Bool
  cappedReason : Option String
  derivedFacts : ℕ
  iterations : ℕ
  durationMs : ℕ
deriving DecidableEq

/-- The accounting of a submission; `fuel` is the bit pattern of the float. -/
structure RecordedTally where
  time : Option String
  fuel : Option ℕ
  policy : Option (List (String × PolicyStats))
  reasoning : Option RecordedReasoningTally
deriving DecidableEq

structure ApplyRecord where
  requestCid : ContentId
  bodyCid : ContentId
  bodyKind : BodyKind
  recordedAtMillis : ℕ
  head : ContentId
  t : ℤ
  recordedIndex : ℕ
  tally : Option RecordedTally
  flakeCount : ℕ
deriving DecidableEq

inductive PoisonReason where
  | stagingFailed (error : String) (attempts : ℕ)
  | bodyMalformed (error : String)
  | policyViolation (error : String)
  | ledgerNotFound (ledgerId : String)
  | pushCasFailed (headAtWorker expectedByChain : Option ContentId)
  | workerPanic (message : String)
deriving DecidableEq

structure PoisonRecord where
  requestCid : ContentId
  bodyCid : ContentId
  reason : PoisonReason
  recordedIndex : ℕ
  recordedAtMillis : ℕ
deriving DecidableEq

inductive ApplyOutcome where
  | applied (record : ApplyRecord)
  | failed (record : PoisonRecord)

namespace ApplyOutcome

def requestCid : ApplyOutcome → ContentId
  | .applied r => r.requestCid
  | .failed r => r.requestCid

def bodyCid : ApplyOutcome → ContentId
  | .applied r => r.bodyCid
  | .failed r => r.bodyCid

def recordedAtMillis : ApplyOutcome → ℕ
  | .applied r => r.recordedAtMillis
  | .failed r => r.recordedAtMillis

def recordedIndex : ApplyOutcome → ℕ
  | .applied r => r.recordedIndex
  | .failed r => r.recordedIndex

end ApplyOutcome

/-- One pending submission. -/
structure QueueEntry where
  queueId : ℕ
  enqueuedIndex : ℕ
  enqueuedAtMillis : ℕ
  idempotency : Option IdempotencyCacheKey
  requestCid : ContentId
  bodyCid : ContentId
  bodyKind : BodyKind
deriving DecidableEq

inductive ClearReason where
  | branchDropped | branchPurged | branchHeadReset | branchRetracted
deriving DecidableEq

structure ClearMarker where
  reason : ClearReason
  appliedAtMillis : ℕ

structure QueueConfig where
  perBranchCap : ℕ
  globalCap : ℕ

def QueueConfig.DEFAULT_PER_BRANCH : ℕ := 1024
def QueueConfig.DEFAULT_GLOBAL : ℕ := 16384

def QueueConfig.default : QueueConfig := ⟨DEFAULT_PER_BRANCH, DEFAULT_GLOBAL⟩

/-- A metadata tree with sorted maps, by its encoding: equal trees have equal bytes. -/
abbrev CanonicalMap := List UInt8

structure StoredStatus where
  v : ℤ
  state : String
  extra : CanonicalMap
deriving DecidableEq

/-- The status of a branch that never pushed one; `[0]` encodes the empty map. -/
def StoredStatus.initial : StoredStatus := ⟨1, "ready", [0]⟩

structure StoredConfigPayload where
  defaultContext : Option ContentId
  configId : Option ContentId
  extra : CanonicalMap
deriving DecidableEq

structure StoredConfig where
  v : ℤ
  payload : Option StoredConfigPayload
deriving DecidableEq

def StoredConfig.unborn : StoredConfig := ⟨0, none⟩

inductive GraphSourceType where
  | bm25 | vector | geo | r2rml | iceberg | sql | delta
  | unknown (name : String)

structure GraphSourceRecord where
  graphSourceId : String
  name : String
  branch : String
  sourceType : GraphSourceType
  config : String
  dependencies : List String
  indexId : Option ContentId
  indexT : ℤ
  retracted : Bool

def GraphSourceRecord.new (name branch : String) (sourceType : GraphSourceType) (config : String)
    (dependencies : List String) : GraphSourceRecord where
  graphSourceId := formatLedgerId name branch
  name := name
  branch := branch
  sourceType := sourceType
  config := config
  dependencies := dependencies
  indexId := none
  indexT := 0
  retracted := false

structure NameServiceState where
  refs : KeyedMap RefKey RefEntry
  ledgers : KeyedMap String LedgerRecord
  retracted : Finset RefKey
  idempotency : KeyedMap IdempotencyCacheKey ApplyOutcome
  queues : KeyedMap RefKey (List QueueEntry)
  nextQueueId : ℕ
  recentlyCleared : KeyedMap RefKey ClearMarker
  evictedIdempotencyCount : ℕ
  queueConfig : QueueConfig
  status : KeyedMap String StoredStatus
  config : KeyedMap String StoredConfig
  graphSources : KeyedMap String GraphSourceRecord
  workerEligibleVoters : Finset ℕ
  configuredVoters : Finset ℕ

def NameServiceState.new : NameServiceState where
  refs := ∅
  ledgers := ∅
  retracted := ∅
  idempotency := ∅
  queues := ∅
  nextQueueId := 0
  recentlyCleared := ∅
  evictedIdempotencyCount := 0
  queueConfig := QueueConfig.default
  status := ∅
  config := ∅
  graphSources := ∅
  workerEligibleVoters := ∅
  configuredVoters := ∅

def branchRegistered (ledgers : KeyedMap String LedgerRecord) (key : RefKey) : Bool :=
  (ledgers.lookup key.ledgerName).any (fun l => key.branch ∈ l.branches)

namespace NameServiceState

def isKnown (s : NameServiceState) (key : RefKey) : Bool := branchRegistered s.ledgers key

def queue (s : NameServiceState) (key : RefKey) : List QueueEntry := (s.queues.lookup key).getD []

end NameServiceState

end

/-!
## Commands and responses of the name service

One constructor per replicated command and per answer, with the data the state machine reads
and reports.
-/

structure RefValue where
  id : Option ContentId
  t : ℤ
deriving DecidableEq

inductive RefKind where
  | commitHead | indexHead

structure NewIndexHead where
  ledgerId : String
  branch : String
  newIndexHead : ContentId
  t : ℤ
  appliedAtMillis : ℕ

structure NewLedger where
  ledgerId : String
  branch : String
  createdAtMillis : ℕ

structure NewBranch where
  ledgerId : String
  branch : String
  sourceBranch : String
  atCommit : Option (ContentId × ℤ)
  appliedAtMillis : ℕ

structure ResetHeadSnapshot where
  commitHeadId : Option ContentId
  commitT : ℤ
  indexHeadId : Option ContentId
  indexT : ℤ

structure RefCas where
  ledgerId : String
  branch : String
  kind : RefKind
  expected : Option RefValue
  new : RefValue
  appliedAtMillis : ℕ

structure ConfigUpdate where
  ledgerId : String
  expected : Option StoredConfig
  new : StoredConfig

structure QueueSubmission where
  ledgerId : String
  branch : String
  idempotency : Option IdempotencyCacheKey
  requestCid : ContentId
  bodyCid : ContentId
  bodyKind : BodyKind
  appliedAtMillis : ℕ

structure StagedHead where
  ledgerId : String
  branch : String
  queueId : ℕ
  commitId : ContentId
  commitT : ℤ
  appliedAtMillis : ℕ
  tally : Option RecordedTally
  flakeCount : ℕ

structure EntryPoisoning where
  ledgerId : String
  branch : String
  queueId : ℕ
  reason : PoisonReason
  appliedAtMillis : ℕ

structure WorkerEligibility where
  voter : ℕ
  eligible : Bool
  appliedAtMillis : ℕ

inductive Command where
  | advanceIndexHead (args : NewIndexHead)
  | rewriteIndexHead (args : NewIndexHead)
  | createLedger (args : NewLedger)
  | createBranch (args : NewBranch)
  | dropBranch (ledgerId branch : String) (appliedAtMillis : ℕ)
  | resetHead (ledgerId branch : String) (snapshot : ResetHeadSnapshot) (appliedAtMillis : ℕ)
  | retractLedger (ledgerId branch : String) (appliedAtMillis : ℕ)
  | purgeBranch (ledgerId branch : String) (appliedAtMillis : ℕ)
  | releaseContent (id : ContentId)
  | compareAndSetRef (args : RefCas)
  | pushStatus (ledgerId : String) (expected : Option StoredStatus) (new : StoredStatus)
  | pushConfig (args : ConfigUpdate)
  | publishGraphSource (name branch : String) (sourceType : GraphSourceType) (config : String)
      (dependencies : List String)
  | publishGraphSourceIndex (name branch : String) (indexId : ContentId) (indexT : ℤ)
  | retractGraphSource (name branch : String)
  | enqueueCommand (args : QueueSubmission)
  | applyHead (args : StagedHead)
  | poisonQueueEntry (args : EntryPoisoning)
  | evictIdempotency (cutoffMillis markerCutoffMillis : ℕ)
  | setWorkerEligibility (args : WorkerEligibility)

inductive QueueFullScope where
  | perBranch | global
deriving DecidableEq

inductive EligibilityRefusal where
  | voterNotConfigured
deriving DecidableEq

inductive DesyncReason where
  | wrongFront (actualQueueId : ℕ)
  | queueCleared (reason : ClearReason)
  | headNotMonotonic (currentT proposedT : ℤ)
  | invariantViolated (description : String)
deriving DecidableEq

inductive Response where
  | indexAdvanced (indexT : ℤ) (indexHead : ContentId)
  | indexStale (currentT : ℤ)
  | indexAhead (commitT proposedT : ℤ)
  | refCasUpdated
  | refCasConflict (actual : Option RefValue)
  | statusUpdated
  | statusConflict (actual : Option StoredStatus)
  | configUpdated
  | configConflict (actual : Option StoredConfig)
  | graphSourcePublished
  | graphSourceIndexAdvanced (indexT : ℤ)
  | graphSourceIndexStale (currentT : ℤ)
  | graphSourceNotFound (graphSourceId : String)
  | graphSourceRetracted (graphSourceId : String)
  | graphSourceAlreadyRetracted (graphSourceId : String)
  | created (ledgerId : String)
  | alreadyExists (ledgerId : String)
  | branchCreated (ledgerId : String) (head : ContentId) (t : ℤ)
  | sourceBranchNotFound (ledgerId : String)
  | branchDropped (ledgerId : String) (parentBranches : Option ℕ)
      (releasedEnvelopes : List (String × ContentId))
  | branchHasChildren (ledgerId : String) (children : ℕ)
  | headReset (ledgerId : String) (releasedEnvelopes : List (String × ContentId))
  | retracted (ledgerId : String) (releasedEnvelopes : List (String × ContentId))
  | alreadyRetracted (ledgerId : String)
  | ledgerRetracted (ledgerId : String)
  | purged (ledgerId : String) (releasedEnvelopes : List (String × ContentId))
  | alreadyPurged (ledgerId : String)
  | ledgerNotFound (ledgerId : String)
  | bodyHashMismatch
  | enqueued (ledgerId : String) (queueId : ℕ)
  | idempotencyHit (record : ApplyRecord)
  | idempotencyFailed (record : PoisonRecord)
  | inFlight (ledgerId : String) (queueId : ℕ)
  | queueFull (ledgerId : String) (depth cap : ℕ) (scope : QueueFullScope)
  | headApplied (ledgerId : String) (commitId : ContentId) (commitT : ℤ)
      (releasedEnvelope : Option ContentId)
  | queueDesync (ledgerId : String) (requestedQueueId : ℕ) (reason : DesyncReason)
  | poisoned (ledgerId : String) (queueId : ℕ) (reason : PoisonReason)
      (releasedEnvelope : Option ContentId)
  | evictionApplied (removed : ℕ) (releasedEnvelopes : List (String × ContentId))
  | workerEligibilitySet (voter : ℕ) (eligible changed : Bool)
  | workerEligibilityRefused (voter : ℕ) (eligible : Bool) (reason : EligibilityRefusal)
  | noOp
deriving DecidableEq

/-!
## The replicated state machine

`apply σ s command logIndex` is the state after a committed command and the answer to it. The
order in which a hash map hands out the expired cache entries is left open through the sort
`σ`; everything else is a function of the state and the command.
-/

open Lib Response

def U32_MAX : ℕ := 2 ^ 32 - 1

variable (s : NameServiceState)

def applySetWorkerEligibility (args : WorkerEligibility) :
    NameServiceState × Response :=
  if args.voter ∉ s.configuredVoters then
    (s, .workerEligibilityRefused args.voter args.eligible .voterNotConfigured)
  else if args.eligible then
    ({ s with workerEligibleVoters := insert args.voter s.workerEligibleVoters },
      .workerEligibilitySet args.voter args.eligible (args.voter ∉ s.workerEligibleVoters))
  else
    ({ s with workerEligibleVoters := s.workerEligibleVoters.erase args.voter },
      .workerEligibilitySet args.voter args.eligible (args.voter ∈ s.workerEligibleVoters))

def createLedger (logIndex : ℕ) (args : NewLedger) :
    NameServiceState × Response :=
  let full := formatLedgerId args.ledgerId args.branch
  let ledger := (s.ledgers.lookup args.ledgerId).getD ⟨args.createdAtMillis, logIndex, []⟩
  -- a record that is only just inserted has no branches, so this one was there
  if args.branch ∈ ledger.branches then (s, .alreadyExists full)
  else
    let ledger := { ledger with branches := ledger.branches ++ [args.branch] }
    ({ s with ledgers := s.ledgers.insert args.ledgerId ledger }, .created full)

/-- Clear the queue of a branch and leave a marker when it held entries; the envelopes of the
drained entries are to be released. -/
def clearQueueForAdmin (refKey : RefKey) (reason : ClearReason)
    (appliedAtMillis : ℕ) : NameServiceState × List (String × ContentId) :=
  match s.queues.lookup refKey with
  | none => (s, [])
  | some [] => ({ s with queues := s.queues.erase refKey }, [])
  | some (entry :: rest) =>
    ({ s with
        queues := s.queues.erase refKey
        recentlyCleared := s.recentlyCleared.insert refKey ⟨reason, appliedAtMillis⟩ },
      (entry :: rest).map fun entry => (refKey.ledgerId, entry.requestCid))

/-- One child less for the parent, not below zero; the new count, or zero without parent. -/
def decrementChildCount (ledgerId parentBranch : String) :
    NameServiceState × ℕ :=
  match s.refs.lookup ⟨ledgerId, parentBranch⟩ with
  | some parent =>
    ({ s with
        refs := s.refs.insert ⟨ledgerId, parentBranch⟩
          { parent with branches := parent.branches - 1 } },
      parent.branches - 1)
  | none => (s, 0)

def retractLedger (ledgerId branch : String) (appliedAtMillis : ℕ) :
    NameServiceState × Response :=
  let key : RefKey := ⟨ledgerId, branch⟩
  let full := formatLedgerId ledgerId branch
  if ¬ s.isKnown key then (s, .alreadyRetracted full)
  else if key ∉ s.retracted then
    let cleared := clearQueueForAdmin { s with retracted := insert key s.retracted } key
      .branchRetracted appliedAtMillis
    (cleared.1, .retracted full cleared.2)
  else (s, .alreadyRetracted full)

/-- Take a branch off its ledger, and the ledger away with its last branch. -/
def retainOtherBranches (ledgers : KeyedMap String LedgerRecord) (ledgerId branch : String) :
    KeyedMap String LedgerRecord × Bool :=
  match ledgers.lookup ledgerId with
  | some ledger =>
    let branches := ledger.branches.filter (· ≠ branch)
    (if branches = [] then ledgers.erase ledgerId
      else ledgers.insert ledgerId { ledger with branches := branches },
      decide (branches.length < ledger.branches.length))
  | none => (ledgers, false)

/-- The entry, the retraction and the registration of a branch are removed and its parent has
one child less. The second component is the removed entry's source with the parent's count. -/
def removeBranch (key : RefKey) : NameServiceState × Option ℕ :=
  let removedSource := (s.refs.lookup key).bind (·.sourceBranch)
  let s := { s with
    refs := s.refs.erase key
    retracted := s.retracted.erase key
    ledgers := (retainOtherBranches s.ledgers key.ledgerName key.branch).1 }
  match removedSource with
  | some parent =>
    let decremented := decrementChildCount s key.ledgerName parent
    (decremented.1, some decremented.2)
  | none => (s, none)

def purgeBranch (ledgerId branch : String) (appliedAtMillis : ℕ) :
    NameServiceState × Response :=
  let key : RefKey := ⟨ledgerId, branch⟩
  let full := formatLedgerId ledgerId branch
  let children := ((s.refs.lookup key).map (·.branches)).getD 0
  if 0 < children then (s, .branchHasChildren full children)
  else
    let removedRef := (s.refs.lookup key).isSome
    let removedRetraction := key ∈ s.retracted
    let removedBranch := (retainOtherBranches s.ledgers ledgerId branch).2
    let cleared := clearQueueForAdmin (removeBranch s key).1 key .branchPurged appliedAtMillis
    if removedRef ∨ removedRetraction ∨ removedBranch then
      (cleared.1, .purged full cleared.2)
    else (cleared.1, .alreadyPurged full)

def createBranch (logIndex : ℕ) (args : NewBranch) :
    NameServiceState × Response :=
  let full := formatLedgerId args.ledgerId args.branch
  match s.ledgers.lookup args.ledgerId with
  | none => (s, .ledgerNotFound args.ledgerId)
  | some ledger =>
    if args.branch ∈ ledger.branches then (s, .alreadyExists full)
    else
      let sourceKey : RefKey := ⟨args.ledgerId, args.sourceBranch⟩
      match s.refs.lookup sourceKey with
      | none => (s, .sourceBranchNotFound (formatLedgerId args.ledgerId args.sourceBranch))
      | some source =>
        let start := args.atCommit.getD (source.head, source.t)
        let refs := s.refs.insert sourceKey
          { source with branches := min (source.branches + 1) U32_MAX }
        let ledger := { ledger with branches := ledger.branches ++ [args.branch] }
        ({ s with
            ledgers := s.ledgers.insert args.ledgerId ledger
            refs := refs.insert ⟨args.ledgerId, args.branch⟩
              { head := start.1
                t := start.2
                lastAdvancedAtMillis := args.appliedAtMillis
                lastAdvancedIndex := logIndex
                index := none
                sourceBranch := some args.sourceBranch
                branches := 0 } },
          .branchCreated full start.1 start.2)

def dropBranch (ledgerId branch : String) (appliedAtMillis : ℕ) :
    NameServiceState × Response :=
  let key : RefKey := ⟨ledgerId, branch⟩
  let full := formatLedgerId ledgerId branch
  if ¬ s.isKnown key then (s, .ledgerNotFound full)
  else
    let children := ((s.refs.lookup key).map (·.branches)).getD 0
    if 0 < children then (s, .branchHasChildren full children)
    else
      let removed := removeBranch s key
      let cleared := clearQueueForAdmin removed.1 key .branchDropped appliedAtMillis
      (cleared.1, .branchDropped full removed.2 cleared.2)

def resetHead (ledgerId branch : String) (snapshot : ResetHeadSnapshot)
    (appliedAtMillis : ℕ) : NameServiceState × Response :=
  let key : RefKey := ⟨ledgerId, branch⟩
  let full := formatLedgerId ledgerId branch
  if ¬ s.isKnown key then (s, .ledgerNotFound full)
  else if key ∈ s.retracted then (s, .ledgerRetracted full)
  else
    match snapshot.commitHeadId with
    | none =>
      -- an unborn snapshot: the entry goes, the branch keeps its slot on the ledger
      let cleared := clearQueueForAdmin { s with refs := s.refs.erase key } key .branchHeadReset
        appliedAtMillis
      (cleared.1, .headReset full cleared.2)
    | some head =>
      let prior := s.refs.lookup key
      let entry : RefEntry :=
        { head := head
          t := snapshot.commitT
          lastAdvancedAtMillis := 0
          lastAdvancedIndex := 0
          index := snapshot.indexHeadId.map fun head => ⟨head, snapshot.indexT⟩
          sourceBranch := prior.bind (·.sourceBranch)
          branches := (prior.map (·.branches)).getD 0 }
      let cleared := clearQueueForAdmin { s with refs := s.refs.insert key entry } key
        .branchHeadReset appliedAtMillis
      (cleared.1, .headReset full cleared.2)

variable (args : NewIndexHead)

/-- Install a new index head unless `isStale existing new` or it is ahead of the commits. -/
def setIndexHead (isStale : ℤ → ℤ → Bool) :
    NameServiceState × Response :=
  if (s.ledgers.lookup args.ledgerId).isNone then (s, .ledgerNotFound args.ledgerId)
  else
    let refKey : RefKey := ⟨args.ledgerId, args.branch⟩
    if refKey ∈ s.retracted then
      (s, .ledgerRetracted (formatLedgerId args.ledgerId args.branch))
    else
      match s.refs.lookup refKey with
      | none => (s, .ledgerNotFound args.ledgerId)
      | some entry =>
        match entry.index.filter (fun existing => isStale existing.t args.t) with
        | some existing => (s, .indexStale existing.t)
        | none =>
          if entry.t < args.t then (s, .indexAhead entry.t args.t)
          else
            ({ s with
                refs := s.refs.insert refKey { entry with
                  index := some ⟨args.newIndexHead, args.t⟩
                  lastAdvancedAtMillis := args.appliedAtMillis } },
              .indexAdvanced args.t args.newIndexHead)

def advanceIndexHead : NameServiceState × Response :=
  setIndexHead s args (fun existingT newT => newT ≤ existingT)

def rewriteIndexHead : NameServiceState × Response :=
  setIndexHead s args (fun existingT newT => newT < existingT)

/-- The commit or index ref of a registered branch. -/
def currentRefValue (key : RefKey) (kind : RefKind) : Option RefValue :=
  if ¬ s.isKnown key then none
  else
    let entry := s.refs.lookup key
    match kind with
    | .commitHead => some ⟨entry.map (·.head), (entry.map (·.t)).getD 0⟩
    | .indexHead =>
      let index := entry.bind (·.index)
      some ⟨index.map (·.head), (index.map (·.t)).getD 0⟩

/-- Without an expected value the ref must have no id; otherwise it must be the value. -/
def expectedMatches (expected : Option RefValue) (current : RefValue) : Bool :=
  match expected with
  | none => current.id.isNone
  | some rv => current == rv

/-- Commit heads advance strictly, index heads may stay. -/
def casMonotonic (kind : RefKind) (currentT newT : ℤ) : Bool :=
  match kind with
  | .commitHead => currentT < newT
  | .indexHead => currentT ≤ newT

def applyCompareAndSetRef (logIndex : ℕ) (args : RefCas) :
    NameServiceState × Response :=
  let key : RefKey := ⟨args.ledgerId, args.branch⟩
  let full := formatLedgerId args.ledgerId args.branch
  match currentRefValue s key args.kind with
  | none => (s, .ledgerNotFound full)
  | some current =>
    if key ∈ s.retracted then (s, .ledgerRetracted full)
    else if ¬ expectedMatches args.expected current then (s, .refCasConflict (some current))
    else if ¬ casMonotonic args.kind current.t args.new.t then (s, .refCasConflict (some current))
    else
      match args.kind with
      | .commitHead =>
        match args.new.id with
        | none => (s, .refCasConflict (some current))
        | some head =>
          let prior := s.refs.lookup key
          ({ s with
              refs := s.refs.insert key
                { head := head
                  t := args.new.t
                  lastAdvancedAtMillis := args.appliedAtMillis
                  lastAdvancedIndex := logIndex
                  index := prior.bind (·.index)
                  sourceBranch := prior.bind (·.sourceBranch)
                  branches := (prior.map (·.branches)).getD 0 } },
            .refCasUpdated)
      | .indexHead =>
        match s.refs.lookup key with
        | none => (s, .indexAhead 0 args.new.t)
        | some entry =>
          if entry.t < args.new.t then (s, .indexAhead entry.t args.new.t)
          else
            ({ s with
                refs := s.refs.insert key { entry with
                  index := args.new.id.map fun head => ⟨head, args.new.t⟩
                  lastAdvancedAtMillis := args.appliedAtMillis } },
              .refCasUpdated)

/-- What the status and the configuration of a branch have in common: a version that every
push advances, a value for an absent record and their answers. -/
structure VersionedValue (α : Type) where
  absent : α
  v : α → ℤ
  conflict : Option α → Response
  updated : Response

def StoredStatus.versioned : VersionedValue StoredStatus where
  absent := StoredStatus.initial
  v := StoredStatus.v
  conflict := statusConflict
  updated := statusUpdated

def StoredConfig.versioned : VersionedValue StoredConfig where
  absent := StoredConfig.unborn
  v := StoredConfig.v
  conflict := configConflict
  updated := configUpdated

/-- The values are keyed by the command's id as it stands. -/
def applyVersionedPush {α : Type} [DecidableEq α] (T : VersionedValue α) (s : NameServiceState)
    (values : KeyedMap String α) (ledgerId : String) (expected : Option α) (new : α) :
    KeyedMap String α × Response :=
  match splitLedgerId ledgerId with
  | .error _ => (values, T.conflict none)
  | .ok (name, branch) =>
    if ¬ s.isKnown ⟨name, branch⟩ then (values, T.conflict none)
    else
      let current := (values.lookup ledgerId).getD T.absent
      if expected ≠ some current then (values, T.conflict (some current))
      else if T.v new ≤ T.v current then (values, T.conflict (some current))
      else (values.insert ledgerId new, T.updated)

def applyPublishGraphSource (name branch : String)
    (sourceType : GraphSourceType) (config : String) (dependencies : List String) :
    NameServiceState × Response :=
  let graphSourceId := formatLedgerId name branch
  let record := match s.graphSources.lookup graphSourceId with
    | some record => { record with
        sourceType := sourceType, config := config, dependencies := dependencies,
        retracted := false }
    | none => GraphSourceRecord.new name branch sourceType config dependencies
  ({ s with graphSources := s.graphSources.insert graphSourceId record }, .graphSourcePublished)

def applyPublishGraphSourceIndex (name branch : String)
    (indexId : ContentId) (indexT : ℤ) : NameServiceState × Response :=
  let graphSourceId := formatLedgerId name branch
  match s.graphSources.lookup graphSourceId with
  | none => (s, .graphSourceNotFound graphSourceId)
  | some record =>
    if indexT ≤ record.indexT then (s, .graphSourceIndexStale record.indexT)
    else
      ({ s with
          graphSources := s.graphSources.insert graphSourceId
            { record with indexId := some indexId, indexT := indexT } },
        .graphSourceIndexAdvanced indexT)

def applyRetractGraphSource (name branch : String) :
    NameServiceState × Response :=
  let graphSourceId := formatLedgerId name branch
  match s.graphSources.lookup graphSourceId with
  | some record =>
    if record.retracted then (s, .graphSourceAlreadyRetracted graphSourceId)
    else
      ({ s with
          graphSources := s.graphSources.insert graphSourceId { record with retracted := true } },
        .graphSourceRetracted graphSourceId)
  | none => (s, .graphSourceAlreadyRetracted graphSourceId)

/-- Mirror the voters of a membership; a demoted voter that stays is still demoted. -/
def applyMembership (newVoters : Finset ℕ) : NameServiceState :=
  let survivingDemotions := (s.configuredVoters \ s.workerEligibleVoters).filter (· ∈ newVoters)
  { s with
    workerEligibleVoters := newVoters \ survivingDemotions
    configuredVoters := newVoters }

end Fluree.NameService

import Fluree.Core.CommitGraph
import Fluree.Core.Value
import Fluree.Lib.Changes
import Mathlib.Data.List.Dedup

/-!
# Merging and rebasing branches

How a merge and a rebase compute what they commit. Both look for the keys `(s, p, g)` that two
branches have changed since a common ancestor, walk the first-parent lines of the heads for the
changes themselves, resolve the conflicts by a strategy and stage the result on a ledger state.

A flake is modelled by the fact it is about (`FactKey`: all its components but `t` and `op`) and its
`op`; staging gives every flake of a commit the `t` of that commit. The state of a branch holds the
facts that the commits of its first-parent line leave asserted.
-/

namespace Fluree.Branch

open Chain (Envelope CommitError CommonAncestor Walk findCommonAncestor)
open Lib (Halt Turn loop)

/-! ## Facts, keys and commits -/

/-- Full identity of a fact. Values are taken up to the equality of `FlakeValue`. -/
structure FactKey (Value : Type) where
  g : Option Sid
  s : Sid
  p : Sid
  o : Value
  dt : Sid
  lang : Option String
  i : Option ℤ
deriving DecidableEq

/-- What two branches conflict on. -/
structure ConflictKey where
  s : Sid
  p : Sid
  g : Option Sid
deriving DecidableEq

/-- An assert (`true`) or a retract of a fact. -/
abbrev Change (Value : Type) := FactKey Value × Bool

structure Commit (Cid Value : Type) extends Envelope Cid where
  flakes : List (Change Value)
deriving DecidableEq

abbrev CommitStore (Cid Value : Type) := Cid → Option (Commit Cid Value)

variable {Cid Value : Type}

def FactKey.conflictKey (f : FactKey Value) : ConflictKey := ⟨f.s, f.p, f.g⟩

variable (store : CommitStore Cid Value)

def CommitStore.envelopes : Chain.ContentStore Cid := fun cid => (store cid).map (·.toEnvelope)

inductive ApiError (Cid : Type) where
  | core (e : CommitError Cid)
  | notFound (id : String)
  | invalidBranch (message : String)
  | internal (message : String)
  | branchConflict (message : String)
  | shaclViolation (report : String)
  | http (status : ℕ) (message : String)
deriving DecidableEq

/-- Steps that may fail or need more fuel. -/
abbrev Api (Cid α : Type) := Except (Halt (ApiError Cid)) α

def fail {α : Type} (e : ApiError Cid) : Api Cid α := .error (.failed e)

def loadCommitById (cid : Cid) : Api Cid (Commit Cid Value) :=
  match store cid with
  | some commit => .ok commit
  | none => fail (.core (.notFound cid))

/-! ## The first-parent walk -/

/-- The commit `cid` comes next on the line below those walked so far. -/
def visitLineage (stopAtT : ℤ) (walked : List (Cid × Commit Cid Value)) (cid : Cid)
    (commit : Commit Cid Value) :
    Api Cid (Turn (Option Cid × List (Cid × Commit Cid Value)) (List (Cid × Commit Cid Value))) :=
  if commit.t ≤ stopAtT then .ok (.leave walked)
  else
    match walked.getLast?.filter fun child => decide (child.2.t ≤ commit.t) with
    | some child => fail (.core (.notDecreasing cid commit.t child.2.t))
    | none =>
      -- the parent cannot reach above `t - 1`, so it need not be loaded at or below the stop
      .ok (.again (if stopAtT < commit.t - 1 then commit.parents.head? else none,
        walked ++ [(cid, commit)]))

def lineageTurn (stopAtT : ℤ)
    (s : Option Cid × List (Cid × Commit Cid Value)) :
    Api Cid (Turn (Option Cid × List (Cid × Commit Cid Value)) (List (Cid × Commit Cid Value))) :=
  match s.1 with
  | none => .ok (.leave s.2)
  | some cid => do
    let commit ← loadCommitById store cid
    visitLineage stopAtT s.2 cid commit

/-- The commits above `stopAtT` on the first-parent line of a head, newest first. The streaming walk
(`trace_first_parent_commits_by_id`) and the collecting one (`collect_first_parent_cids`, which loads
the commits afterwards) make the same stops and the same checks. -/
def walkFirstParent (headId : Cid) (stopAtT : ℤ) (fuel : ℕ) :
    Api Cid (List (Cid × Commit Cid Value)) :=
  loop (fun _ => lineageTurn store stopAtT) fuel (some headId, [])

/-! ## What a range of commits changed -/

def keysOf (flakes : List (Change Value)) : List ConflictKey := flakes.map (·.1.conflictKey)

/-- The keys modified on the line of a head above `stopAtT`. -/
def computeDeltaKeys (headId : Cid) (stopAtT : ℤ) (fuel : ℕ) :
    Api Cid (List ConflictKey) := do
  let commits ← walkFirstParent store headId stopAtT fuel
  .ok (commits.flatMap fun c => keysOf c.2.flakes).dedup

variable [DecidableEq Value]

/-- `NetChangeAccumulator`, fed newest commit first and each commit's flakes last to first
(`Fold::Replay`): the newest change of each fact is kept. The commits come oldest first. -/
def collectFromCommits (commits : List (Commit Cid Value)) : List (Change Value) :=
  ((commits.map (·.flakes)).reverse.flatMap List.reverse).foldl Lib.Changes.keepFirst []

def collectCommitData (store : CommitStore Cid Value) (headId : Cid) (stopAtT : ℤ) (fuel : ℕ) :
    Api Cid (List (Change Value)) := do
  let commits ← walkFirstParent store headId stopAtT fuel
  .ok (collectFromCommits (commits.reverse.map (·.2)))

/-! ## Ledger states -/

structure LedgerState (Cid Value : Type) where
  headCommitId : Option Cid
  t : ℤ
  facts : List (FactKey Value)
deriving DecidableEq

def LedgerState.genesis : LedgerState Cid Value := ⟨none, 0, []⟩

def LedgerState.applyCommit (state : LedgerState Cid Value) (id : Cid) (commit : Commit Cid Value) :
    LedgerState Cid Value :=
  ⟨some id, commit.t, Lib.Changes.apply state.facts commit.flakes⟩

/-- The state of a head: the commits of its line, oldest first. An index holds the facts of the
commits up to its `t`, so it shortens the walk and leaves the state as it is. -/
def loadState (store : CommitStore Cid Value) (headId : Cid) (fuel : ℕ) :
    Api Cid (LedgerState Cid Value) := do
  let commits ← walkFirstParent store headId 0 fuel
  .ok (commits.reverse.foldl (fun state c => state.applyCommit c.1 c.2) .genesis)

/-- What lies outside the modelled code. -/
structure Tools (Cid Value : Type) where
  /-- The content id of a commit. -/
  idOf : Commit Cid Value → Cid
  /-- The facts that a range read decodes from the index or from an overlay translated to index
  rows; such a row has no graph. Replays do not change which facts of a state these are. -/
  viaIndex : FactKey Value → Bool
  /-- The report of the shapes that the staged flakes violate. -/
  violates : LedgerState Cid Value → List (Change Value) → Option String
  noveltySize : LedgerState Cid Value → ℕ
  reindexMaxBytes : ℕ

variable (tools : Tools Cid Value)

/-- The commit of staged flakes, with its content id. -/
def buildCommit (state : LedgerState Cid Value)
    (flakes : List (Change Value)) (mergeParents : List Cid) : Cid × Commit Cid Value :=
  let commit : Commit Cid Value :=
    { t := state.t + 1, parents := state.headCommitId.toList ++ mergeParents, flakes := flakes }
  (tools.idOf commit, commit)

/-! ## Strategies -/

inductive ConflictStrategy where
  | takeBoth
  | abort
  | takeSource
  | takeBranch
  | skip
deriving DecidableEq

def ConflictStrategy.abortsOn (strategy : ConflictStrategy) (conflictCount : ℕ) : Bool :=
  decide (strategy = .abort) && decide (0 < conflictCount)

def ConflictStrategy.asStr : ConflictStrategy → String
  | .takeBoth => "take-both"
  | .abort => "abort"
  | .takeSource => "take-source"
  | .takeBranch => "take-branch"
  | .skip => "skip"

variable (viaIndex : FactKey Value → Bool)

def asRead (f : FactKey Value) : FactKey Value := if viaIndex f then { f with g := none } else f

/-- The asserted facts that a read of the key returns in the key's graph. -/
def currentAssertedForKey (state : LedgerState Cid Value)
    (key : ConflictKey) : List (FactKey Value) :=
  ((state.facts.filter fun f => decide (f.conflictKey = key)).map (asRead viaIndex)).filter
    fun f => decide (f.g = key.g)

/-- Retractions of what the state holds under the keys, except of what `winning` asserts too. -/
def buildSourceRetractions (conflictingKeys : List ConflictKey)
    (sourceState : LedgerState Cid Value) (winning : List (Change Value)) : List (Change Value) :=
  conflictingKeys.flatMap fun key =>
    ((currentAssertedForKey viaIndex sourceState key).filter
      fun f => decide ((f, true) ∉ winning)).map (·, false)

def dropConflicting (flakes : List (Change Value)) (conflictingKeys : List ConflictKey) :
    List (Change Value) :=
  flakes.filter fun f => decide (f.1.conflictKey ∉ conflictingKeys)

/-- Merge: `flakes` come from the source and are staged on the target, whose state is
`oppositeState`. -/
def applyTwoWayStrategy (flakes : List (Change Value))
    (conflictingKeys : List ConflictKey) (strategy : ConflictStrategy)
    (oppositeState : LedgerState Cid Value) : List (Change Value) :=
  if conflictingKeys = [] then flakes
  else
    match strategy with
    | .takeSource => flakes ++ buildSourceRetractions viaIndex conflictingKeys oppositeState flakes
    | .takeBranch => dropConflicting flakes conflictingKeys
    | _ => flakes

/-- Rebase: `flakes` come from a commit of the branch and are staged on the source's state with the
replays so far. -/
def resolveFlakes (flakes : List (Change Value))
    (conflictingKeys : List ConflictKey) (strategy : ConflictStrategy)
    (sourceState : LedgerState Cid Value) : List (Change Value) :=
  if conflictingKeys = [] then flakes
  else
    match strategy with
    | .takeSource => dropConflicting flakes conflictingKeys
    | .takeBranch => flakes ++ buildSourceRetractions viaIndex conflictingKeys sourceState flakes
    | _ => flakes

/-! ## Merge -/

/-- What a general merge has built. -/
structure StagedMerge (Cid Value : Type) where
  conflictCount : ℕ
  newHeadId : Cid
  commit : Commit Cid Value
  state : LedgerState Cid Value
deriving DecidableEq

def abortedMerge (count : ℕ) (sourceBranch resolvedTarget : String) : ApiError Cid :=
  .branchConflict
    s!"Merge aborted: {count} conflict(s) between {sourceBranch} and {resolvedTarget} with abort strategy"

/-- Stage the resolved flakes and build the merge commit. -/
def stageMerge (targetState : LedgerState Cid Value)
    (sourceHeadId : Cid) (sourceFlakes : List (Change Value)) (conflicts : List ConflictKey)
    (strategy : ConflictStrategy) : Api Cid (StagedMerge Cid Value) :=
  let resolved := applyTwoWayStrategy tools.viaIndex sourceFlakes conflicts strategy targetState
  match tools.violates targetState resolved with
  | some report => fail (.shaclViolation report)
  | none =>
    let (id, commit) := buildCommit tools targetState resolved [sourceHeadId]
    .ok ⟨conflicts.length, id, commit, targetState.applyCommit id commit⟩

def conflictsOf (sourceDelta targetDelta : List ConflictKey) : List ConflictKey :=
  sourceDelta.filter fun key => decide (key ∈ targetDelta)

/-- Load what a merge stages once it is not refused. -/
def mergeConflicts (store : CommitStore Cid Value)
    (sourceBranch resolvedTarget : String) (sourceHeadId targetHeadId : Cid)
    (ancestor : CommonAncestor Cid) (strategy : ConflictStrategy) (fuel : ℕ)
    (conflicts : List ConflictKey) : Api Cid (StagedMerge Cid Value) :=
  if strategy.abortsOn conflicts.length then
    fail (abortedMerge conflicts.length sourceBranch resolvedTarget)
  else do
    let targetState ← loadState store targetHeadId fuel
    let sourceFlakes ← collectCommitData store sourceHeadId ancestor.t fuel
    stageMerge tools targetState sourceHeadId sourceFlakes conflicts strategy

def buildMergeGeneral (store : CommitStore Cid Value)
    (sourceBranch resolvedTarget : String) (sourceHeadId targetHeadId : Cid)
    (ancestor : CommonAncestor Cid) (strategy : ConflictStrategy) (fuel : ℕ) :
    Api Cid (StagedMerge Cid Value) :=
  if strategy = .skip then fail (.invalidBranch "Skip strategy is not supported for merge")
  else do
    let sourceDelta ← computeDeltaKeys store sourceHeadId ancestor.t fuel
    let targetDelta ← computeDeltaKeys store targetHeadId ancestor.t fuel
    mergeConflicts tools store sourceBranch resolvedTarget sourceHeadId targetHeadId ancestor
      strategy fuel (conflictsOf sourceDelta targetDelta)

/-! ## Rebase -/

structure CommitSummary (Cid : Type) where
  commitId : Cid
  t : ℤ
  conflictKeys : List ConflictKey

structure RebaseConflict where
  originalT : ℤ
  keys : List ConflictKey
  conflictCount : ℕ
  resolution : String

def findConflictingKeys (flakes : List (Change Value)) (sourceDelta : List ConflictKey) :
    List ConflictKey :=
  ((keysOf flakes).filter fun key => decide (key ∈ sourceDelta)).dedup

/-- The branch commits above `stopAtT`, oldest first. -/
def scanBranchCommits (headId : Cid) (stopAtT : ℤ)
    (sourceDelta : List ConflictKey) (fuel : ℕ) : Api Cid (List (CommitSummary Cid)) := do
  let commits ← walkFirstParent store headId stopAtT fuel
  .ok (commits.map fun c => ⟨c.1, c.2.t, findConflictingKeys c.2.flakes sourceDelta⟩).reverse

/-- A replay commit that is built and not yet written. -/
structure PendingReplay (Cid Value : Type) where
  commitId : Cid
  commit : Commit Cid Value
  originalT : ℤ

/-- Where the replay of the branch commits stands. -/
structure Replaying (Cid Value : Type) where
  currentState : LedgerState Cid Value
  conflicts : List RebaseConflict
  skipped : ℕ
  pendingReplays : List (PendingReplay Cid Value)

def Replaying.conflict (r : Replaying Cid Value) (summary : CommitSummary Cid)
    (strategy : ConflictStrategy) : Replaying Cid Value :=
  if summary.conflictKeys = [] then r
  else
    { r with conflicts := r.conflicts ++
        [⟨summary.t, summary.conflictKeys, summary.conflictKeys.length, strategy.asStr⟩] }

def shapesReport (t : ℤ) (report : String) : String :=
  s!"replaying commit t={t} would violate the source branch's shapes:\n{report}"

def noveltyExceeded (cumulative max : ℕ) : String :=
  s!"Rebase would accumulate {cumulative} bytes of novelty (max {max}); reindex the source branch then retry, or rebase a smaller commit range."

def buildReplayCommit (r : Replaying Cid Value) (originalT : ℤ)
    (flakes : List (Change Value)) : Api Cid (Replaying Cid Value) :=
  match tools.violates r.currentState flakes with
  | some report => fail (.shaclViolation (shapesReport originalT report))
  | none =>
    let (id, commit) := buildCommit tools r.currentState flakes []
    let nextState := r.currentState.applyCommit id commit
    if tools.reindexMaxBytes ≤ tools.noveltySize nextState then
      fail (.http 422 (noveltyExceeded (tools.noveltySize nextState) tools.reindexMaxBytes))
    else
      .ok { r with currentState := nextState,
                   pendingReplays := r.pendingReplays ++ [⟨id, commit, originalT⟩] }

/-- One turn of the replay loop. -/
def replayCommit (store : CommitStore Cid Value)
    (strategy : ConflictStrategy) (r : Replaying Cid Value) (summary : CommitSummary Cid) :
    Api Cid (Replaying Cid Value) :=
  if summary.conflictKeys ≠ [] ∧ strategy = .skip then
    .ok { r.conflict summary strategy with skipped := r.skipped + 1 }
  else do
    let commit ← loadCommitById store summary.commitId
    let flakes :=
      resolveFlakes tools.viaIndex commit.flakes summary.conflictKeys strategy r.currentState
    if flakes = [] then .ok (r.conflict summary strategy)
    else buildReplayCommit tools (r.conflict summary strategy) summary.t flakes

def replayBranch (store : CommitStore Cid Value)
    (strategy : ConflictStrategy) (state : LedgerState Cid Value)
    (summaries : List (CommitSummary Cid)) : Api Cid (Replaying Cid Value) :=
  summaries.foldlM (replayCommit tools store strategy) ⟨state, [], 0, []⟩

def abortedRebase (count : ℕ) (t : ℤ) : ApiError Cid :=
  .branchConflict s!"Rebase aborted: {count} conflict(s) at t={t} with abort strategy"

/-- Refuse before anything is written. -/
def abortUpfront (strategy : ConflictStrategy) (summaries : List (CommitSummary Cid)) :
    Api Cid Unit :=
  match summaries.find? fun s => decide (strategy = .abort ∧ s.conflictKeys ≠ []) with
  | some summary => fail (abortedRebase summary.conflictKeys.length summary.t)
  | none => .ok ()

/-- The general rebase, from the delta of the source to the last replay. -/
def buildRebaseGeneral (store : CommitStore Cid Value)
    (branchHeadId sourceHeadId : Cid) (ancestor : CommonAncestor Cid)
    (strategy : ConflictStrategy) (fuel : ℕ) : Api Cid (Replaying Cid Value) := do
  let sourceDelta ← computeDeltaKeys store sourceHeadId ancestor.t fuel
  let summaries ← scanBranchCommits store branchHeadId ancestor.t sourceDelta fuel
  abortUpfront strategy summaries
  let sourceState ← loadState store sourceHeadId fuel
  replayBranch tools store strategy sourceState summaries

/-- The branch after `apply_rebase`, which publishes the last replay as its head. With no replay
pending nothing is published, and the branch stays where it was. -/
def applyRebase (store : CommitStore Cid Value) (branchHeadId : Cid) (r : Replaying Cid Value)
    (fuel : ℕ) : Api Cid (LedgerState Cid Value) :=
  if r.pendingReplays.isEmpty then loadState store branchHeadId fuel else .ok r.currentState

end Fluree.Branch

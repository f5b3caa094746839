import Fluree.Api.BranchOps

/-!
# Reverting commits

A revert undoes commits of a branch's own line in one commit: the inverses of their flakes, netted
per fact, are staged on the head. `resolveRevertPlan` finds the commits on the line,
`computeConflictKeys` the keys that other commits have touched since the oldest of them.
-/

namespace Fluree.Branch

open Chain (Envelope Walk collectDagCids)
open Lib (Halt)

variable {Cid Value : Type} [DecidableEq Cid] [DecidableEq Value]

/-- The commits to revert, once the references are resolved. -/
inductive ResolvedSource (Cid : Type) where
  | commits (head : Cid) (tail : List Cid)
  | range (start stop : Cid)

structure RevertPlan (Cid : Type) where
  /-- Newest first. -/
  orderedCommits : List Cid
  oldestT : ℤ

/-- A walk over commits as a step of an operation. -/
def ofWalk {α : Type} : Walk Cid α → Api Cid α
  | .ok a => .ok a
  | .error .outOfFuel => .error .outOfFuel
  | .error (.failed e) => fail (.core e)

section Plan

variable [ToString Cid] (store : CommitStore Cid Value) (headId : Cid)
  (lineage : List (Cid × Commit Cid Value))

/-- The `t` of a commit on the branch's own history. -/
def locateOnLineage (commitId : Cid) (label : String) (fuel : ℕ) : Api Cid (ℤ × Cid) :=
  match lineage.find? (·.1 == commitId) with
  | some commit => .ok (commit.2.t, commitId)
  | none => do
    let reachable ← ofWalk (collectDagCids store.envelopes headId 0 fuel)
    fail (.invalidBranch (if reachable.any (·.2 == commitId) then
      s!"{label} {commitId} reached this branch through a merge, so it is not on the branch's own history; revert it on the branch that authored it and merge again"
    else s!"{label} {commitId} is not reachable from the branch HEAD"))

/-- The commits of the line above `start` up to `stop`. -/
def sliceOfLineage (start stop : ℤ × Cid) : Api Cid (List (ℤ × Cid)) :=
  if stop.1 ≤ start.1 then
    let (startId, stopId) := (start.2, stop.2)
    fail (.invalidBranch s!"Range start {startId} is not an ancestor of {stopId}")
  else
    match (lineage.map fun c => (c.2.t, c.1)).filter fun e => start.1 < e.1 && e.1 ≤ stop.1 with
    | [] => fail (.invalidBranch "Revert range selects zero commits")
    | collected => .ok collected

def selectCommits (source : ResolvedSource Cid) (fuel : ℕ) : Api Cid (List (ℤ × Cid)) :=
  match source with
  | .commits head tail =>
    -- a commit named twice counts where it was named first
    (head :: tail).reverse.dedup.reverse.mapM fun commitId =>
      locateOnLineage store headId lineage commitId "Commit" fuel
  | .range start stop => do
    let last ← locateOnLineage store headId lineage stop "Range endpoint" fuel
    let first ← locateOnLineage store headId lineage start "Range endpoint" fuel
    sliceOfLineage lineage first last

/-- Genesis and merges cannot be reverted. -/
def checkRevertible (commitId : Cid) : Api Cid Unit := do
  let commit ← loadCommitById store commitId
  match commit.parents.length with
  | 0 => fail (.invalidBranch s!"Cannot revert genesis commit {commitId}")
  | 1 => .ok ()
  | _ => fail (.invalidBranch
      s!"Cannot revert merge commit {commitId}; reverting merges is not yet supported")

end Plan

variable [ToString Cid]

def resolveRevertPlan (store : CommitStore Cid Value) (headId : Cid) (source : ResolvedSource Cid)
    (fuel : ℕ) : Api Cid (RevertPlan Cid) := do
  let lineage ← walkFirstParent store headId 0 fuel
  let withT ← selectCommits store headId lineage source fuel
  withT.forM fun e => checkRevertible store e.2
  let sorted := withT.insertionSort fun a b => b.1 ≤ a.1
  .ok ⟨sorted.map (·.2), (sorted.getLast?.map (·.1)).getD 0⟩

/-- The keys that both reverted commits and others since the oldest of them touch. They are sorted
at the end, which matters to no reader. -/
def computeConflictKeys (store : CommitStore Cid Value) (headId : Cid) (plan : RevertPlan Cid)
    (fuel : ℕ) : Api Cid (List ConflictKey) := do
  let commits ← walkFirstParent store headId (max (plan.oldestT - 1) (-2 ^ 63)) fuel
  let (reverted, intervening) := commits.partition fun c => decide (c.1 ∈ plan.orderedCommits)
  .ok (conflictsOf (reverted.flatMap fun c => keysOf c.2.flakes).dedup
    (intervening.flatMap fun c => keysOf c.2.flakes))

/-- `Fold::Undo`: the commits come oldest first, and the inverse of the oldest is the newest
change. -/
def collectUndo (commits : List (Commit Cid Value)) : List (Change Value) :=
  ((commits.map (·.flakes)).flatMap (·.map Lib.Changes.invert)).foldl Lib.Changes.keepFirst []

/-- What a revert reports, with the state it leaves. -/
structure Reverted (Cid Value : Type) where
  revertedCommits : List Cid
  conflictCount : ℕ
  wroteCommit : Bool
  state : LedgerState Cid Value
deriving DecidableEq

/-- Stage the inverses on the head. Nothing is committed if the strategy drops them all. -/
def stageRevert (tools : Tools Cid Value) (state : LedgerState Cid Value) (plan : RevertPlan Cid)
    (inverted : List (Change Value)) (conflicts : List ConflictKey) (strategy : ConflictStrategy) :
    Api Cid (Reverted Cid Value) :=
  let staged := applyTwoWayStrategy tools.viaIndex inverted conflicts strategy state
  if staged = [] then .ok ⟨plan.orderedCommits, conflicts.length, false, state⟩
  else
    match tools.violates state staged with
    | some report => fail (.shaclViolation report)
    | none =>
      let (id, commit) := buildCommit tools state staged []
      .ok ⟨plan.orderedCommits, conflicts.length, true, state.applyCommit id commit⟩

/-- The checks of a strategy before the conflicts are known, and after. -/
def refuseRevert (strategy : ConflictStrategy) : Api Cid Unit :=
  match strategy with
  | .takeBoth => fail (.invalidBranch "TakeBoth strategy is not supported for revert")
  | .skip => fail (.invalidBranch "Skip strategy is not supported for revert")
  | _ => .ok ()

def abortRevert (branch : String) (strategy : ConflictStrategy) (count : ℕ) : Api Cid Unit :=
  if strategy.abortsOn count then
    fail (.branchConflict s!"Revert aborted: {count} conflict(s) on {branch} with abort strategy")
  else .ok ()

def revertSelection (tools : Tools Cid Value) (store : CommitStore Cid Value) (branch : String)
    (headId : Cid) (source : ResolvedSource Cid) (strategy : ConflictStrategy) (fuel : ℕ) :
    Api Cid (Reverted Cid Value) := do
  refuseRevert strategy
  let plan ← resolveRevertPlan store headId source fuel
  let conflicts ← computeConflictKeys store headId plan fuel
  abortRevert branch strategy conflicts.length
  let commits ← plan.orderedCommits.reverse.mapM (loadCommitById store)
  let state ← loadState store headId fuel
  stageRevert tools state plan (collectUndo commits) conflicts strategy

end Fluree.Branch

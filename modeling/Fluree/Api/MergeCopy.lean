import Fluree.Api.Revert

/-!
# Copying commits into the target of a merge

Each branch keeps its commits in a namespace of its own and reads those of the branches it was
created from. A merge copies the commits of the source that are above the common ancestor into the
namespace of the target and moves the target's head.
-/

namespace Fluree.Branch

open Chain

variable {Cid : Type} [DecidableEq Cid]

structure BranchRecord (Cid : Type) where
  commitHeadId : Option Cid
  /-- The branch it was created from, the one that was created from, and so on. -/
  sources : List String

/-- Content ids name contents, so a commit has one envelope wherever it is stored. -/
structure Workspace (Cid : Type) where
  envelope : Cid → Envelope Cid
  records : String → Option (BranchRecord Cid)
  namespaces : String → List Cid

namespace Workspace

variable (w : Workspace Cid) (branch : String)

def readsFrom : List String := branch :: ((w.records branch).map (·.sources)).getD []

def buildBranchedStore : ContentStore Cid := fun cid =>
  if (w.readsFrom branch).any (cid ∈ w.namespaces ·) then some (w.envelope cid) else none

def write (cids : List Cid) : Workspace Cid :=
  { w with namespaces := Function.update w.namespaces branch (cids ++ w.namespaces branch) }

def setHead (head : Cid) : Workspace Cid :=
  let record := (w.records branch).map fun r => { r with commitHeadId := some head }
  { w with records := Function.update w.records branch record }

def copyCommitChain (source target : String) (headId : Cid) (stopAtT : ℤ)
    (fuel : ℕ) : Api Cid (Workspace Cid) := do
  let dag ← ofWalk (collectDagCids (w.buildBranchedStore source) headId stopAtT fuel)
  .ok (w.write target (dag.map (·.2)))

/-- `commitMerge` stages the merge commit of a target and a source head, or refuses to. -/
def mergeBranch (commitMerge : Cid → Cid → Api Cid Cid) (w : Workspace Cid) (source target : String)
    (fuel : ℕ) : Api Cid (Workspace Cid) :=
  match w.records source with
  | none => fail (.notFound source)
  | some sourceRecord =>
    if sourceRecord.sources = [] then
      fail (.invalidBranch s!"Branch {source} has no source branch; only branches created from another branch can be merged")
    else if source = target then fail (.invalidBranch "Cannot merge a branch into itself")
    else
      match w.records target, sourceRecord.commitHeadId with
      | none, _ => fail (.notFound target)
      | some _, none => fail (.invalidBranch s!"Source branch {source} has no commits to merge")
      | some ⟨none, _⟩, some sourceHead => do
        let w ← w.copyCommitChain source target sourceHead 0 fuel
        .ok (w.setHead target sourceHead)
      | some ⟨some targetHead, _⟩, some sourceHead => do
        let ancestor ← ofWalk (findCommonAncestor (w.buildBranchedStore source) sourceHead targetHead
          fuel)
        if ancestor.commitId = targetHead then
          let w ← w.copyCommitChain source target sourceHead ancestor.t fuel
          .ok (w.setHead target sourceHead)
        else
          let merged ← commitMerge targetHead sourceHead
          let w ← w.copyCommitChain source target sourceHead ancestor.t fuel
          .ok ((w.write target [merged]).setHead target merged)

end Workspace

end Fluree.Branch

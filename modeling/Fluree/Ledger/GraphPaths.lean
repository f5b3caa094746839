import Fluree.Indexer.SharedResolver

/-!
# Where a registry comes from

A history is the list of all commits. At any time an index may be built over its first commits, in
full or over an older root, and a ledger may be loaded from a root, take up commits one by one or
attach a newer root. `RootAt` and `RegistryAt` are what these operations give over a history, in
any order. A new branch starts with the root of its source, a restored archive with the root it
brings; only the ledger id of such a root may be written over.
-/

namespace Fluree.Ledger

open Lib Indexer

variable {Cid : Type}

def graphIris (c : Commit Cid Flake) : List String := c.graphDelta.entries.map Prod.snd

namespace GraphRegistry

/-- A commit on a live ledger. -/
def applyCommit (checks : Bool) (r : GraphRegistry) (c : Commit Cid Flake) :
    Except Failure GraphRegistry :=
  r.applyDelta checks (graphIris c)

def applyCommits (checks : Bool) :
    GraphRegistry → List (Commit Cid Flake) → Except Failure GraphRegistry
  | r, [] => .ok r
  | r, c :: cs => do
    let r ← applyCommit checks r c
    applyCommits checks r cs

/-- The commits above the index, when a ledger is loaded. -/
def loadNovelty (checks : Bool) (r : GraphRegistry) (cs : List (Commit Cid Flake)) :
    Except Failure GraphRegistry :=
  r.applyDelta checks (cs.flatMap graphIris)

/-- The registry of a root; a root without graphs is that of a new ledger. -/
def ofRoot (checks : Bool) (root : IndexRoot) : Except Failure GraphRegistry :=
  if root.graphIris.isEmpty then .ok (newForLedger root.ledgerId)
  else seedFromRootIris checks root.graphIris

end GraphRegistry

open GraphRegistry

/-- A root that was written for another ledger over the first `indexed` commits. -/
structure AdoptedRoot where
  indexed : ℕ
  ledgerId : String
  graphIris : List String

/-- A ledger, the history of its commits, the full-text settings at the time of each index, and
the root it was given at the start. -/
structure History (Cid : Type) where
  ledgerId : String
  commits : List (Commit Cid Flake)
  properties : ℕ → List ConfiguredFulltextProperty
  adopted : Option AdoptedRoot

def tableAfter (ns : NamespaceTable) (cs : List (Commit Cid Flake)) : NamespaceTable :=
  cs.foldl (fun ns c => insertMissing ns c.namespaceDelta) ns

namespace History

def upTo (h : History Cid) (k : ℕ) : List (Commit Cid Flake) := h.commits.take k

def between (h : History Cid) (j k : ℕ) : List (Commit Cid Flake) := (h.commits.take k).drop j

/-- The namespaces after the first commits. -/
def table (h : History Cid) (k : ℕ) : NamespaceTable := tableAfter defaultNamespaceCodes (h.upTo k)

/-- A root over the first `k` commits, at least one: what a build gives, or the adopted one. -/
inductive RootAt (h : History Cid) : ℕ → Except ResolverError IndexRoot → Prop where
  | rebuilt (k : ℕ) (pos : 0 < k) (le : k ≤ h.commits.length) :
    RootAt h k (rebuild h.ledgerId (h.properties k) (h.upTo k))
  | extended {j : ℕ} {base : IndexRoot} (k : ℕ) (predicates : PredicateDict)
      (at_base : RootAt h j (.ok base)) (le_next : j ≤ k) (le : k ≤ h.commits.length) :
    RootAt h k (extend h.ledgerId base predicates (h.properties k) (h.between j k))
  | adopted (a : AdoptedRoot) (given : h.adopted = some a) (pos : 0 < a.indexed)
      (le : a.indexed ≤ h.commits.length) :
    RootAt h a.indexed (.ok ⟨a.ledgerId, h.table a.indexed, a.graphIris⟩)

/-- The outcome of obtaining a registry for the first `j` commits. A root that is attached at the
head leaves no commits above it and is `loaded`. A root with another ledger id is loaded, but not
attached. -/
inductive RegistryAt (checks : Bool) (h : History Cid) :
    ℕ → Except Failure GraphRegistry → Prop where
  | created : RegistryAt checks h 0 (.ok (newForLedger h.ledgerId))
  | applied {j : ℕ} {r : GraphRegistry} {c : Commit Cid Flake}
      (at_r : RegistryAt checks h j (.ok r)) (next : h.commits[j]? = some c) :
    RegistryAt checks h (j + 1) (r.applyCommit checks c)
  | replayed (j : ℕ) (le : j ≤ h.commits.length) :
    RegistryAt checks h j ((newForLedger h.ledgerId).loadNovelty checks (h.upTo j))
  | loaded {k : ℕ} {root : IndexRoot} (j : ℕ) (at_root : RootAt h k (.ok root)) (le_head : k ≤ j)
      (le : j ≤ h.commits.length) :
    RegistryAt checks h j (do
      let r ← ofRoot checks root
      r.loadNovelty checks (h.between k j))
  | attached {j k : ℕ} {r : GraphRegistry} {root : IndexRoot}
      (at_r : RegistryAt checks h j (.ok r)) (at_root : RootAt h k (.ok root)) (lt_head : k < j)
      (own : root.ledgerId = h.ledgerId) :
    RegistryAt checks h j (do
      let r' ← ofRoot checks root
      r'.mergePreservingIds checks r.iterEntries)

end History

end Fluree.Ledger

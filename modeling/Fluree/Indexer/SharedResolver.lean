import Fluree.Core.Flake
import Fluree.Core.NsEncoding
import Fluree.Ledger.GraphRegistry

/-!
# Graphs of an index build

An index build numbers graphs on its own: it starts from the two system graphs or from the graphs
of an older root, enters the graphs that full-text settings name, and then goes through the
commits: first the graphs a commit declares, in ascending order, then those its flakes are in.
A root lists the graphs in the order of this dictionary.
-/

namespace Fluree.Indexer

open Lib Ledger

/-- A dictionary numbers strings from 0 in the order they come. -/
abbrev PredicateDict := List String

def PredicateDict.getOrInsert (d : PredicateDict) (s : String) : ℕ × PredicateDict :=
  lookupOrAdd d s

inductive ConfiguredFulltextScope where
  | anyGraph
  | defaultGraph
  | txnMetaGraph
  | namedGraph (iri : String)

structure ConfiguredFulltextProperty where
  scope : ConfiguredFulltextScope
  propertyIri : String

/-- The properties whose values are indexed for search. -/
structure FulltextHookConfig where
  anyGraph : List ℕ
  perGraph : List (ℕ × ℕ)

namespace FulltextHookConfig

def empty : FulltextHookConfig := ⟨[], []⟩

variable (c : FulltextHookConfig)

def addAnyGraph (pId : ℕ) : FulltextHookConfig :=
  { c with anyGraph := c.anyGraph.insert pId }

def addPerGraph (gId pId : ℕ) : FulltextHookConfig :=
  { c with perGraph := c.perGraph.insert (gId, pId) }

end FulltextHookConfig

inductive ResolverError where
  /-- `graph_iris[0] must be txn-meta IRI '{expected}', got: {got:?}` -/
  | notTxnMeta (expected : String) (got : Option String)
  | invalidOp (msg : String)

/-- What a root says of graphs and namespaces. -/
structure IndexRoot where
  ledgerId : String
  namespaceCodes : NamespaceTable
  graphIris : List String

def insertMissing (m : NamespaceTable) (delta : SortedMap UInt16 String) : NamespaceTable :=
  delta.entries.foldl (fun m e => if (m.lookup e.1).isSome then m else m.insert e.1 e.2) m

structure SharedResolverState where
  nsPrefixes : NamespaceTable
  predicates : PredicateDict
  graphs : PredicateDict
  fulltextHookConfig : FulltextHookConfig

namespace SharedResolverState

def newForLedger (ledgerId : String) : SharedResolverState where
  nsPrefixes := defaultNamespaceCodes
  predicates := []
  graphs := ((PredicateDict.getOrInsert [] (txnMetaGraphIri ledgerId)).2.getOrInsert
    (configGraphIri ledgerId)).2
  fulltextHookConfig := .empty

/-- A root with the transaction metadata alone gets the configuration as its second graph. The
predicates of the root are in `predicates`. -/
def fromIndexRoot (root : IndexRoot) (predicates : PredicateDict) :
    Except ResolverError SharedResolverState :=
  if root.graphIris.head? = some (txnMetaGraphIri root.ledgerId) then
    .ok {
      nsPrefixes := root.namespaceCodes
      predicates
      graphs :=
        if root.graphIris.length = 1 then root.graphIris ++ [configGraphIri root.ledgerId]
        else root.graphIris
      fulltextHookConfig := .empty }
  else .error (.notTxnMeta (txnMetaGraphIri root.ledgerId) root.graphIris.head?)

variable (s : SharedResolverState)

def applyNamespaceDelta (delta : SortedMap UInt16 String) :
    SharedResolverState :=
  { s with nsPrefixes := insertMissing s.nsPrefixes delta }

def applyGraphDelta (delta : SortedMap UInt16 String) :
    SharedResolverState :=
  let iris := (delta.entries.map Prod.snd).insertionSort (· ≤ ·)
  { s with graphs := iris.foldl (fun d iri => (d.getOrInsert iri).2) s.graphs }

/-- One property with its scope. A graph whose number does not fit is entered, and skipped. -/
def configureOne (entry : ConfiguredFulltextProperty) :
    SharedResolverState :=
  let (pId, predicates) := s.predicates.getOrInsert entry.propertyIri
  match entry.scope with
  | .anyGraph =>
    { s with predicates, fulltextHookConfig := s.fulltextHookConfig.addAnyGraph pId }
  | .defaultGraph =>
    { s with predicates, fulltextHookConfig := s.fulltextHookConfig.addPerGraph 0 pId }
  | .txnMetaGraph =>
    { s with predicates, fulltextHookConfig := s.fulltextHookConfig.addPerGraph 1 pId }
  | .namedGraph iri =>
    let (id, graphs) := s.graphs.getOrInsert iri
    if id + 1 < 2 ^ 16 then
      { s with
        predicates
        graphs
        fulltextHookConfig := s.fulltextHookConfig.addPerGraph (id + 1) pId }
    else { s with predicates, graphs }

def configureFulltextProperties (properties : List ConfiguredFulltextProperty) : SharedResolverState :=
  properties.foldl configureOne { s with fulltextHookConfig := .empty }

/-- The number of a graph: 0 is the default graph. -/
def resolveGraph (g : Sid) :
    Except ResolverError (ℕ × SharedResolverState) :=
  if g.namespaceCode = Namespaces.EMPTY ∧ g.name = "" then .ok (0, s)
  else
    let iri := (s.nsPrefixes.lookup g.namespaceCode).getD "" ++ g.name
    let (id, graphs) := s.graphs.getOrInsert iri
    let raw := id + 1
    if raw < 2 ^ 16 then .ok (raw, { s with graphs })
    else .error (.invalidOp s!"graph resolve: graph count {raw} exceeds u16::MAX")

def opGraph (f : Flake) : Sid := f.g.getD ⟨Namespaces.EMPTY, ""⟩

def resolveGraphs : SharedResolverState → List Flake → Except ResolverError SharedResolverState
  | s, [] => .ok s
  | s, f :: fs => do
    let (_, s) ← s.resolveGraph (opGraph f)
    resolveGraphs s fs

variable {Cid : Type}

def resolveCommit (s : SharedResolverState) (c : Commit Cid Flake) :
    Except ResolverError SharedResolverState :=
  ((s.applyNamespaceDelta c.namespaceDelta).applyGraphDelta c.graphDelta).resolveGraphs c.flakes

def resolveCommits : SharedResolverState → List (Commit Cid Flake) →
    Except ResolverError SharedResolverState
  | s, [] => .ok s
  | s, c :: cs => do
    let s ← s.resolveCommit c
    resolveCommits s cs

def root (ledgerId : String) : IndexRoot := ⟨ledgerId, s.nsPrefixes, s.graphs⟩

end SharedResolverState

variable {Cid : Type}

def rebuild (ledgerId : String) (properties : List ConfiguredFulltextProperty)
    (commits : List (Commit Cid Flake)) : Except ResolverError IndexRoot := do
  let s := (SharedResolverState.newForLedger ledgerId).configureFulltextProperties properties
  let s ← s.resolveCommits commits
  pure (s.root ledgerId)

/-- The root of an incremental build over an older root, stamped with the ledger it is built for. -/
def extend (ledgerId : String) (base : IndexRoot) (predicates : PredicateDict)
    (properties : List ConfiguredFulltextProperty) (commits : List (Commit Cid Flake)) :
    Except ResolverError IndexRoot := do
  let s ← SharedResolverState.fromIndexRoot base predicates
  let s ← (s.configureFulltextProperties properties).resolveCommits commits
  pure (s.root ledgerId)

end Fluree.Indexer

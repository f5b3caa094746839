import Fluree.Ledger.GraphRegistry
import Fluree.Novelty.Apply
import Fluree.Novelty.CommitFlakes

/-!
# Validation of pushed commits

A push is checked commit by commit against novelty that grows with each of them. Before the first
check every graph of the batch gets a number, once for the whole batch: the index's number, or one
made up behind the largest of these.

`u16` additions wrap around, as in a build without overflow checks.
-/

namespace Fluree.Push

open Lib Namespaces Ledger

/-! ## State -/

/-- The part of a loaded index that push validation uses. -/
structure IndexStore where
  names : BinaryIndexStore
  /-- The number of each named graph. -/
  graphsReverse : KeyedMap String ℕ
  /-- The graphs for which the index has rows. -/
  graphIndexes : List ℕ
  /-- A graph with rows is the default graph or has a name. -/
  named : ∀ gId ∈ graphIndexes, gId = 0 ∨ ∃ iri, graphsReverse.lookup iri = some gId
  numbers : ∀ iri gId, graphsReverse.lookup iri = some gId → gId < 2 ^ 16

namespace IndexStore

def sidToIri (s : IndexStore) (sid : Sid) : Option String := s.names.sidToIri sid

def graphIdForIri (s : IndexStore) (iri : String) : Option ℕ := s.graphsReverse.lookup iri

end IndexStore

/-- A named graph's subject id and number, as `build_reverse_graph` gives them. -/
def Registered (snapshot : LedgerSnapshot) (registry : GraphRegistry) (g : Sid) (gId : ℕ) : Prop :=
  gId ≠ 0 ∧ ∃ iri, (gId, iri) ∈ registry.iterEntries ∧ snapshot.encodeIri iri = some g

/-- A ledger in memory. No two names of graphs have one subject id, and numbers are `u16`. -/
structure LedgerState where
  ledgerId : String
  snapshot : LedgerSnapshot
  /-- The time of the index. -/
  t : ℤ
  registry : GraphRegistry
  store : Option IndexStore
  novelty : Novelty
  apart : ∀ g i j, Registered snapshot registry g i → Registered snapshot registry g j → i = j
  numbers : ∀ e ∈ registry.iterEntries, e.1 < 2 ^ 16

/-- What a ledger keeps that did not start from the index of another one: number 1 is its own
transaction metadata, the flakes of a graph lie under the number of the graph, and a ledger without
an index is new. A branch of an indexed ledger has the metadata graph of its source as number 1. -/
structure LedgerState.Routed (st : LedgerState) : Prop where
  txnMeta : ∀ g, Registered st.snapshot st.registry g TXN_META_GRAPH_ID →
    st.snapshot.encodeIri (txnMetaGraphIri st.ledgerId) = some g
  flakes : ∀ gId, ∀ f ∈ st.novelty.flakes gId,
    (f.g = none ∧ gId = 0) ∨ ∃ g, f.g = some g ∧ Registered st.snapshot st.registry g gId
  genesis : st.store = none → st.t = 0

/-- The order in which a hash set is read. -/
structure HashOrder where
  order : List Sid → List Sid
  perm : ∀ l, (order l).Perm l

/-! ## Numbers for the graphs of a batch -/

/-- What is known after some graphs of the batch. -/
structure Resolving where
  result : KeyedMap ℕ Sid
  maxGId : ℕ
  unresolved : List Sid

/-- The index's name for a graph and the index's number, if there is an index. `none` is a subject
id whose code the index does not know. -/
def lookUp (store : Option IndexStore) (gSid : Sid) : Option (Option ℕ) :=
  match store with
  | none => some none
  | some s => (s.sidToIri gSid).map s.graphIdForIri

def resolveOne (store : Option IndexStore) (r : Resolving) (gSid : Sid) : Resolving :=
  match lookUp store gSid with
  | none => r
  | some (some gId) =>
    { r with maxGId := max r.maxGId gId, result := r.result.insert gId gSid }
  | some none => { r with unresolved := r.unresolved ++ [gSid] }

def graphSidsSet (flakes : List Flake) : List Sid := (flakes.filterMap (·.g)).dedup

/-- Consecutive numbers for the graphs that the index does not have. -/
def fabricate (maxGId : ℕ) (result : KeyedMap ℕ Sid) (unresolved : List Sid) : KeyedMap ℕ Sid :=
  unresolved.zipIdx.foldl (fun m e => m.insert ((maxGId + 1 + e.2) % 2 ^ 16) e.1) result

def deriveGraphRouting (σ : HashOrder) (store : Option IndexStore) (flakes : List Flake) :
    KeyedMap ℕ Sid :=
  let r := (σ.order (graphSidsSet flakes)).foldl (resolveOne store) ⟨∅, 1, []⟩
  fabricate r.maxGId r.result (insertionSortBy Sid.cmp r.unresolved)

def reverseGraphLookup (graphSids : KeyedMap ℕ Sid) : KeyedMap Sid ℕ :=
  graphSids.entries.foldl (fun m e => m.insert e.2 e.1) ∅

def orInsert (m : KeyedMap Sid ℕ) (k : Sid) (v : ℕ) : KeyedMap Sid ℕ :=
  if (m.lookup k).isSome then m else m.insert k v

def txnMetaSid (snapshot : LedgerSnapshot) (ledgerId : String) : Option Sid :=
  snapshot.encodeIri (txnMetaGraphIri ledgerId)

/-! ## Retractions -/

inductive PushError where
  | conflict (msg : String)
  | invalid (msg : String)
  | forbidden (msg : String)
  | internal (msg : String)
  | novelty (err : NoveltyError)

/-- How an index branch and the flakes over it answer a query, up to a time. -/
structure Scan where
  scan : ℕ → List Flake → Flake → ℤ → Except PushError (List Flake)

def dtCompatible (expected actual : Sid) : Bool :=
  if expected = actual then true
  else if expected.namespaceCode ≠ XSD ∨ actual.namespaceCode ≠ XSD then false
  else if expected.name = "integer" then
    actual.name ∈ ["integer", "int", "short", "byte", "long"]
  else if expected.name = "double" then actual.name ∈ ["double", "float"]
  else false

def matchesParts (target f : Flake) : Bool :=
  decide (f.s = target.s) && decide (f.p = target.p) && f.o.eq target.o

def flakeMatchesRangeEq (target f : Flake) : Bool :=
  matchesParts target f && dtCompatible target.dt f.dt

/-- A ledger without an index has only novelty to read. -/
def genesisRange (overlay : List Flake) (target : Flake) (toT : ℤ) : List Flake :=
  (resolveCurrentFlakes (overlay.filter (·.t ≤ toT)) .spot).filter (flakeMatchesRangeEq target)

/-- A graph without rows has only novelty to read. -/
def overlayOnlyFlakes (overlay : List Flake) (target : Flake) (toT : ℤ) : List Flake :=
  resolveCurrentFlakes (overlay.filter fun f => f.t ≤ toT ∧ matchesParts target f) .spot

variable (scan : Scan) (st : LedgerState)

def rangeWithOverlay (gId : ℕ) (overlay : Novelty) (target : Flake)
    (toT : ℤ) : Except PushError (List Flake) :=
  match st.store with
  | some s =>
    if gId ∈ s.graphIndexes then scan.scan gId (overlay.flakes gId) target toT
    else .ok (overlayOnlyFlakes (overlay.flakes gId) target toT)
  | none =>
    if st.t = 0 then .ok (genesisRange (overlay.flakes gId) target toT)
    else .error (.internal
      "binary-only db has no range_provider attached — load and attach BinaryIndexStore before queries")

def targetGraphId (reverseGraph : KeyedMap Sid ℕ) (target : Flake) : Except PushError ℕ :=
  match target.g with
  | none => .ok 0
  | some gSid =>
    match reverseGraph.lookup gSid with
    | some gId => .ok gId
    | none =>
      let sid := gSid.display
      .error (.internal
        s!"is_currently_asserted: graph Sid {sid} not found in reverse_graph map — derive_graph_routing should have included it")

/-- One flake of the answer: the first of the latest time decides. -/
def latest (target : Flake) (last : Option (ℤ × Bool)) (f : Flake) : Option (ℤ × Bool) :=
  if f.g ≠ target.g ∨ f.m ≠ target.m then last
  else
    match last with
    | none => some (f.t, f.op)
    | some (t, op) => if f.t > t then some (f.t, f.op) else some (t, op)

variable (overlay : Novelty)

def isCurrentlyAsserted (toT : ℤ)
    (target : Flake) (reverseGraph : KeyedMap Sid ℕ) : Except PushError Bool := do
  let gId ← targetGraphId reverseGraph target
  let found ← rangeWithOverlay scan st gId overlay target toT
  .ok (((found.foldl (latest target) none).map Prod.snd).getD false)

/-- One retraction at a position of the commit. -/
def assertRetractionExists (toT : ℤ)
    (reverseGraph : KeyedMap Sid ℕ) (e : Flake × ℕ) : Except PushError Unit :=
  if e.1.op then .ok ()
  else do
    let asserted ← isCurrentlyAsserted scan st overlay toT e.1 reverseGraph
    let idx := e.2
    if asserted then .ok ()
    else .error (.invalid
      s!"retraction invariant violated at flake[{idx}]: retract targets non-existent assertion")

def assertRetractionsExist (toT : ℤ)
    (flakes : List Flake) (reverseGraph : KeyedMap Sid ℕ) : Except PushError Unit :=
  flakes.zipIdx.forM (assertRetractionExists scan st overlay toT reverseGraph)

/-! ## The batch -/

variable {Cid : Type}

/-- The snapshot, of which commits may set the split mode, and the novelty so far. -/
structure Evolving where
  snapshot : LedgerSnapshot
  overlay : Novelty

/-- The checks whose outcome is not at issue: namespaces before the retractions, policy, limits and
shapes after them. -/
structure OtherChecks (Cid : Type) where
  scan : Scan
  namespaces : Evolving → Commit Cid Flake → Except PushError Unit
  staging : Evolving → Commit Cid Flake → Except PushError Unit

/-- A batch of commits over a ledger. -/
structure Batch (Cid : Type) where
  st : LedgerState
  source : CommitSource Cid
  order : HashOrder
  checks : OtherChecks Cid
  commits : List (Commit Cid Flake)

namespace Batch

variable (b : Batch Cid)

def allPushFlakes : List Flake := b.commits.flatMap (·.flakes)

def routing : KeyedMap ℕ Sid := deriveGraphRouting b.order b.st.store b.allPushFlakes

/-- The graph of transaction metadata has a number in any case. -/
def reverseGraph : KeyedMap Sid ℕ :=
  match txnMetaSid b.st.snapshot b.st.ledgerId with
  | some gSid => orInsert (reverseGraphLookup b.routing) gSid TXN_META_GRAPH_ID
  | none => reverseGraphLookup b.routing

variable (snapshot : LedgerSnapshot)

def allFlakes (c : Commit Cid Flake) : List Flake :=
  let metaFlakes := Novelty.generateCommitFlakes b.source c b.st.ledgerId c.t
  match txnMetaSid snapshot b.st.ledgerId with
  | some gSid =>
    Novelty.dropForgedCommitFlakes c.flakes gSid ++ Novelty.stampGraphOnCommitFlakes metaFlakes gSid
  | none => c.flakes ++ metaFlakes

def currentT (overlay : Novelty) : ℤ := max b.st.t overlay.t

def declareMode (c : Commit Cid Flake) : Except PushError LedgerSnapshot :=
  match c.nsSplitMode with
  | none => .ok snapshot
  | some mode => (snapshot.setNsSplitMode mode c.t).mapError .invalid

def applyFlakes (overlay : Novelty) (c : Commit Cid Flake) :
    Except PushError Novelty :=
  (overlay.applyCommit (b.allFlakes snapshot c) c.t b.reverseGraph).mapError .novelty

def validateCommit (e : Evolving) (c : Commit Cid Flake) : Except PushError Evolving := do
  let _ ← b.checks.namespaces e c
  let snapshot ← declareMode e.snapshot c
  let _ ← assertRetractionsExist b.checks.scan b.st e.overlay (b.currentT e.overlay) c.flakes
    b.reverseGraph
  let _ ← b.checks.staging ⟨snapshot, e.overlay⟩ c
  let overlay ← b.applyFlakes snapshot e.overlay c
  .ok ⟨snapshot, overlay⟩

def validated (n : ℕ) : Except PushError Evolving :=
  (b.commits.take n).foldlM b.validateCommit ⟨b.st.snapshot, b.st.novelty⟩

end Batch

end Fluree.Push

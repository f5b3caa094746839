import Fluree.Lib.SortedMap
import Fluree.Lib.Numbering

/-!
# Graph registry

A ledger numbers its named graphs: 0 is the default graph and has no IRI, 1 and 2 are the
transaction metadata and the configuration, and graphs of users start at 3. Commits register new
IRIs in batches; an index root lists all IRIs by number.

Numbers are `u16`. A build with overflow checks panics where another wraps around.
-/

namespace Fluree.Ledger

open Lib

/-- How an operation of the core fails. -/
inductive Failure where
  | invalidIndex (msg : String)
  | panic
  deriving DecidableEq

def DEFAULT_GRAPH_ID : ℕ := 0

def TXN_META_GRAPH_ID : ℕ := 1

def CONFIG_GRAPH_ID : ℕ := 2

def FIRST_USER_GRAPH_ID : ℕ := 3

def txnMetaGraphIri (ledgerId : String) : String := s!"urn:fluree:{ledgerId}#txn-meta"

def configGraphIri (ledgerId : String) : String := s!"urn:fluree:{ledgerId}#config"

/-- Add on `u16`. -/
def addU16 (checks : Bool) (a b : ℕ) : Except Failure ℕ :=
  if a + b < 2 ^ 16 then .ok (a + b)
  else if checks then .error .panic
  else .ok ((a + b) % 2 ^ 16)

/-- Both directions of the numbering and the next free number. -/
structure GraphRegistry where
  iriToId : KeyedMap String ℕ
  idToIri : List (Option String)
  nextId : ℕ

namespace GraphRegistry

def newForLedger (ledgerId : String) : GraphRegistry where
  iriToId := (AList.insert (txnMetaGraphIri ledgerId) TXN_META_GRAPH_ID ∅).insert
    (configGraphIri ledgerId) CONFIG_GRAPH_ID
  idToIri := [none, some (txnMetaGraphIri ledgerId), some (configGraphIri ledgerId)]
  nextId := FIRST_USER_GRAPH_ID

def graphIdForIri (r : GraphRegistry) (iri : String) : Option ℕ := r.iriToId.lookup iri

def iriForGraphId (r : GraphRegistry) (gId : ℕ) : Option String := (r.idToIri[gId]?).join

def iterEntries (r : GraphRegistry) : List (ℕ × String) :=
  r.idToIri.zipIdx.filterMap fun e => e.1.map (e.2, ·)

/-! ## Roots -/

variable (checks : Bool) (r : GraphRegistry)

/-- One IRI of a root behind those already read. -/
def seedOne (rootIdx : ℕ) (iri : String) :
    Except Failure GraphRegistry := do
  let gId ← addU16 checks (rootIdx % 2 ^ 16) 1
  if iri = "" then
    .error (.invalidIndex s!"GraphRegistry: empty IRI at root index {rootIdx} (g_id={gId})")
  else
    match r.iriToId.lookup iri with
    | some existingId =>
      .error (.invalidIndex
        s!"GraphRegistry: duplicate IRI '{iri}' at g_id={gId} (already at g_id={existingId})")
    | none => .ok { r with iriToId := r.iriToId.insert iri gId, idToIri := r.idToIri ++ [some iri] }

def seedAll (checks : Bool) : ℕ → GraphRegistry → List String → Except Failure GraphRegistry
  | _, r, [] => .ok r
  | rootIdx, r, iri :: iris => do
    let r ← seedOne checks r rootIdx iri
    seedAll checks (rootIdx + 1) r iris

variable (iris : List String)

/-- The registry of an index root: its first IRI has number 1. -/
def seedFromRootIris : Except Failure GraphRegistry :=
  if iris.isEmpty then
    .error (.invalidIndex
      "GraphRegistry: root iris must not be empty (at minimum txn-meta required)")
  else do
    let r ← seedAll checks 0 ⟨∅, [none], 0⟩ iris
    pure { r with nextId := max (r.idToIri.length % 2 ^ 16) FIRST_USER_GRAPH_ID }

/-! ## Registration -/

def place (slots : List (Option String)) (gId : ℕ) (iri : String) : List (Option String) :=
  (slots ++ List.replicate (gId + 1 - slots.length) none).set gId (some iri)

def assign (iri : String) : Except Failure GraphRegistry :=
  if r.nextId < FIRST_USER_GRAPH_ID then .error .panic
  else do
    let next ← addU16 checks r.nextId 1
    pure {
      iriToId := r.iriToId.insert iri r.nextId
      idToIri := place r.idToIri r.nextId iri
      nextId := next }

def assignAll (checks : Bool) : GraphRegistry → List String → Except Failure GraphRegistry
  | r, [] => .ok r
  | r, iri :: iris => do
    let r ← assign checks r iri
    assignAll checks r iris

/-- The IRIs without a number, each once. -/
def unregistered : List String :=
  iris.foldl (fun acc iri =>
    if (r.graphIdForIri iri).isSome || decide (iri ∈ acc) then acc else acc ++ [iri]) []

/-- Register a batch of IRIs in ascending order. -/
def applyDelta :
    Except Failure GraphRegistry :=
  assignAll checks r ((r.unregistered iris).insertionSort (· ≤ ·))

/-! ## Carrying numbers over -/

/-- Keep the number of one entry; an IRI whose number is taken is set aside. -/
def keepOne (acc : GraphRegistry × List String) (e : ℕ × String) :
    Except Failure (GraphRegistry × List String) :=
  let (r, displaced) := acc
  let (gId, iri) := e
  if gId = 0 ∨ (r.graphIdForIri iri).isSome then .ok (r, displaced)
  else if (r.iriForGraphId gId).isSome then .ok (r, displaced ++ [iri])
  else do
    let next ← addU16 checks gId 1
    pure ({
      iriToId := r.iriToId.insert iri gId
      idToIri := place r.idToIri gId iri
      nextId := max (max r.nextId next) FIRST_USER_GRAPH_ID }, displaced)

def keepAll (checks : Bool) :
    GraphRegistry × List String → List (ℕ × String) → Except Failure (GraphRegistry × List String)
  | acc, [] => .ok acc
  | acc, e :: entries => do
    let acc ← keepOne checks acc e
    keepAll checks acc entries

/-- The entries of an older registry under their numbers; IRIs that could not keep theirs are
registered anew. -/
def mergePreservingIds (entries : List (ℕ × String)) :
    Except Failure GraphRegistry := do
  let (r, displaced) ← keepAll checks (r, []) entries
  r.applyDelta checks displaced

end GraphRegistry

end Fluree.Ledger

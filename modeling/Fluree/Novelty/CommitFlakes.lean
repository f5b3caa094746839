import Fluree.Core.Flake
import Fluree.Core.NsEncoding
import Fluree.Lib.Slices

/-!
# Flakes about commits

What is recorded of a commit in the graph of transaction metadata while the commit is not indexed.
The flakes are made anew whenever a commit is taken up; they have no graph until they are stamped.
Flakes of a commit's own data that are already in the graph of transaction metadata and have a
commit as their subject are forged, and dropped.
-/

namespace Fluree

/-- Content ids and times, which the ledger takes from elsewhere. -/
structure CommitSource (Cid : Type) where
  /-- The digest of a content id in hexadecimal. -/
  digestHex : Cid → String
  /-- A content id as text. -/
  text : Cid → String
  /-- Milliseconds since 1970 of an RFC 3339 time. -/
  epochMs : String → Option Int64
  /-- Bytes of a value in memory. -/
  valueBytes : FlakeValue → ℕ

namespace Novelty

open Namespaces

variable {Cid : Type} (x : CommitSource Cid)

def Flake.sizeBytes (f : Flake) : ℕ :=
  let base := 16 + (8 + f.s.name.utf8ByteSize) + (8 + f.p.name.utf8ByteSize) +
    (8 + f.dt.name.utf8ByteSize)
  let mSize := match f.m with
    | none => 0
    | some m => 8 + (m.lang.map String.utf8ByteSize).getD 0 + 4
  base + x.valueBytes f.o + mSize + 9

/-! ## Stamping -/

variable (flakes : List Flake)

def stampGraphOnCommitFlakes (graphSid : Sid) : List Flake :=
  flakes.map fun f =>
    if f.g = none ∧ f.s.namespaceCode = FLUREE_COMMIT then { f with g := some graphSid } else f

def isForgedCommitFlake (f : Flake) (txnMetaGraphSid : Sid) : Bool :=
  decide (f.s.namespaceCode = FLUREE_COMMIT) && decide (f.g = some txnMetaGraphSid)

variable (txnMetaGraphSid : Sid)

/-- One flake that may be of the commit's own data or made for the commit. -/
def stampOrDrop (f : Flake) : Option Flake :=
  if f.s.namespaceCode ≠ FLUREE_COMMIT then some f
  else match f.g with
    | none => some { f with g := some txnMetaGraphSid }
    | some g => if g = txnMetaGraphSid then none else some f

def stampCommitFlakesDroppingForgeries : List Flake :=
  flakes.filterMap (stampOrDrop txnMetaGraphSid)

def dropForgedCommitFlakes : List Flake :=
  flakes.filter fun f => !isForgedCommitFlake f txnMetaGraphSid

/-! ## The record of a commit -/

def stringDt : Sid := ⟨XSD, "string"⟩

def longDt : Sid := ⟨XSD, "long"⟩

def refDt : Sid := ⟨JSON_LD, "id"⟩

def commitSid (id : Cid) : Sid := ⟨FLUREE_COMMIT, x.digestHex id⟩

/-- Value and datatype of an entry. The language of a text is left out. -/
def txnMetaObject : TxnMetaValue → FlakeValue × Sid
  | .string s => (.string s, stringDt)
  | .typedLiteral value dtNs dtName => (.string value, ⟨dtNs, dtName⟩)
  | .langString value _ => (.string value, stringDt)
  | .ref ns name => (.ref ⟨ns, name⟩, refDt)
  | .long n => (.long n, longDt)
  | .double d => (.double d, ⟨XSD, "double"⟩)
  | .boolean b => (.boolean b, ⟨XSD, "boolean"⟩)

/-- The flakes that record a commit: its address, ledger, time, number, sizes, parents,
transaction and metadata. -/
def generateCommitFlakes (c : Commit Cid Flake) (ledgerId : String) (t : ℤ) : List Flake :=
  match c.id with
  | none => []
  | some id =>
    let push (p : Sid) (o : FlakeValue) (dt : Sid) : Flake :=
      ⟨none, commitSid x id, p, o, dt, t, true, none⟩
    let asserts := (c.flakes.filter (·.op)).length
    let retracts := (c.flakes.filter fun f => !f.op).length
    let size := (c.flakes.map (Flake.sizeBytes x)).sum
    [push ⟨FLUREE_DB, "address"⟩ (.string (x.text id)) stringDt,
     push ⟨FLUREE_DB, "alias"⟩ (.string ledgerId) stringDt]
    ++ c.time.toList.map (fun time =>
        push ⟨FLUREE_DB, "time"⟩ (.long ((x.epochMs time).getD 0)) longDt)
    ++ [push ⟨FLUREE_DB, "t"⟩ (.long (.ofInt c.t)) longDt,
        push ⟨FLUREE_DB, "asserts"⟩ (.long (.ofNat asserts)) longDt,
        push ⟨FLUREE_DB, "retracts"⟩ (.long (.ofNat retracts)) longDt,
        push ⟨FLUREE_DB, "size"⟩ (.long (.ofNat size)) longDt]
    ++ c.parents.map (fun prev => push ⟨FLUREE_DB, "previous"⟩ (.ref (commitSid x prev)) refDt)
    ++ c.txn.toList.map (fun txn => push ⟨FLUREE_DB, "txn"⟩ (.string (x.text txn)) stringDt)
    ++ c.txnMeta.map (fun entry =>
        push ⟨entry.predicateNs, entry.predicateName⟩ (txnMetaObject entry.value).1
          (txnMetaObject entry.value).2)

end Novelty

end Fluree

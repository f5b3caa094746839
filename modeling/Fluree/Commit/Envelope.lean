import Fluree.Commit.Ops

/-!
# The envelope of a commit

What a commit records beside its flakes: a version, presence flags, the fields in the order of
their bits, and two optional extensions at the end.
-/

namespace Fluree.Codec

open Lib (leBytes leNat Reader repeatRead SortedMap)

def FLAG_TXN_META : UInt8 := 0x01

def FLAG_PARENT : UInt8 := 0x02

def FLAG_NAMESPACE_DELTA : UInt8 := 0x04

def FLAG_TXN : UInt8 := 0x08

def FLAG_TIME : UInt8 := 0x10

def FLAG_TXN_SIGNATURE : UInt8 := 0x80

def KNOWN_FLAGS : UInt8 :=
  FLAG_TXN_META ||| FLAG_PARENT ||| FLAG_NAMESPACE_DELTA ||| FLAG_TXN ||| FLAG_TIME
    ||| FLAG_TXN_SIGNATURE

def MAX_GRAPH_DELTA_ENTRIES : ℕ := 256

def MAX_GRAPH_IRI_LENGTH : ℕ := 8192

def MAX_CID_BYTES : ℕ := 128

def MAX_PARENTS : ℕ := 16

structure CodecEnvelope (Cid : Type) where
  t : ℤ
  parents : List Cid
  namespaceDelta : SortedMap UInt16 String
  txn : Option Cid
  time : Option String
  txnSignature : Option TxnSignature
  txnMeta : List TxnMetaEntry
  graphDelta : SortedMap UInt16 String
  nsSplitMode : Option NsSplitMode

def CodecEnvelope.fromCommit {Cid φ : Type} (c : Commit Cid φ) : CodecEnvelope Cid where
  t := c.t
  parents := c.parents
  namespaceDelta := c.namespaceDelta
  txn := c.txn
  time := c.time
  txnSignature := c.txnSignature
  txnMeta := c.txnMeta
  graphDelta := c.graphDelta
  nsSplitMode := c.nsSplitMode

/-! ## Writing -/

def encodeTxnMetaValue : TxnMetaValue → Except Stop (List UInt8)
  | .string s => .ok (0 :: encodeLenStr s)
  | .typedLiteral value dtNs dtName =>
    .ok (1 :: (encodeLenStr value ++ (encodeVarint dtNs.toNat ++ encodeLenStr dtName)))
  | .langString value lang => .ok (2 :: (encodeLenStr value ++ encodeLenStr lang))
  | .ref ns name => .ok (3 :: (encodeVarint ns.toNat ++ encodeLenStr name))
  | .long n => .ok (4 :: encodeVarint (zigzagEncode n).toNat)
  | .double d =>
    if d.isFinite then .ok (5 :: encodeF64 d)
    else .error (.error (.envelopeEncode "txn_meta does not support non-finite double values"))
  | .boolean b => .ok [6, if b then 1 else 0]

def encodeTxnMetaEntry (e : TxnMetaEntry) : Except Stop (List UInt8) := do
  let value ← encodeTxnMetaValue e.value
  pure (encodeVarint e.predicateNs.toNat ++ (encodeLenStr e.predicateName ++ value))

/-- Refuse unless the condition holds. -/
def require (c : Bool) (e : CommitCodecError) : Except Stop Unit :=
  if c then .ok () else .error (.error e)

def encodeTxnMeta (entries : List TxnMetaEntry) : Except Stop (List UInt8) := do
  let n := entries.length
  require (n ≤ MAX_TXN_META_ENTRIES)
    (.envelopeEncode s!"txn_meta entry count {n} exceeds maximum {MAX_TXN_META_ENTRIES}")
  let parts ← entries.mapM encodeTxnMetaEntry
  pure (encodeVarint entries.length ++ parts.flatten)

def encodeLenBytes (bytes : List UInt8) : Except Stop (List UInt8) :=
  if bytes.length > MAX_CID_BYTES then
    let n := bytes.length
    .error (.error (.envelopeDecode s!"CID byte length {n} exceeds maximum {MAX_CID_BYTES}"))
  else .ok (encodeVarint bytes.length ++ bytes)

def encodeCommitId (x : External) (id : x.Cid) : Except Stop (List UInt8) :=
  encodeLenBytes (x.cidToBytes id)

/-- Entries in the order of their keys, behind their number. -/
def encodeDelta (delta : SortedMap UInt16 String) : List UInt8 :=
  encodeVarint delta.entries.length
    ++ delta.entries.flatMap fun e => encodeVarint e.1.toNat ++ encodeLenStr e.2

def encodeNsDelta (delta : SortedMap UInt16 String) : List UInt8 := encodeDelta delta

def encodeGraphDelta (delta : SortedMap UInt16 String) : List UInt8 := encodeDelta delta

def presenceFlags {Cid : Type} (e : CodecEnvelope Cid) : UInt8 :=
  (if e.txnMeta.isEmpty then 0 else FLAG_TXN_META)
    ||| (if e.parents.isEmpty then 0 else FLAG_PARENT)
    ||| (if e.namespaceDelta.entries.isEmpty then 0 else FLAG_NAMESPACE_DELTA)
    ||| (if e.txn.isSome then FLAG_TXN else 0) ||| (if e.time.isSome then FLAG_TIME else 0)
    ||| (if e.txnSignature.isSome then FLAG_TXN_SIGNATURE else 0)

def encodeParents (x : External) (parents : List x.Cid) : Except Stop (List UInt8) :=
  match parents with
  | [] => .ok []
  | [parent] => encodeCommitId x parent
  | _ => do
    let ids ← parents.mapM (encodeCommitId x)
    pure (encodeVarint parents.length ++ ids.flatten)

def encodeTxnSignature (sig : TxnSignature) : List UInt8 :=
  encodeLenStr sig.signer ++ (match sig.txnId with
    | some id => 1 :: encodeLenStr id
    | none => [0])

def encodeGraphExtension (delta : SortedMap UInt16 String) : Except Stop (List UInt8) :=
  if delta.entries.isEmpty then .ok [0]
  else if delta.entries.length > MAX_GRAPH_DELTA_ENTRIES then
    let n := delta.entries.length
    .error (.error (.limitExceeded
      s!"graph_delta has {n} entries, max is {MAX_GRAPH_DELTA_ENTRIES}"))
  else
    match delta.entries.find? fun e => (asBytes e.2).length > MAX_GRAPH_IRI_LENGTH with
    | some (gId, iri) =>
      let n := (asBytes iri).length
      .error (.error (.limitExceeded
        s!"graph_delta[{gId}] IRI is {n} bytes, max is {MAX_GRAPH_IRI_LENGTH}"))
    | none => .ok (1 :: encodeGraphDelta delta)

def encodeTxnField (x : External) : Option x.Cid → Except Stop (List UInt8)
  | some id => encodeLenBytes (x.cidToBytes id)
  | none => .ok []

def encodeTxnMetaField (entries : List TxnMetaEntry) : Except Stop (List UInt8) :=
  if entries.isEmpty then .ok [] else encodeTxnMeta entries

def encodeModeExtension (mode : Option NsSplitMode) : Except Stop (List UInt8) :=
  match mode with
  | none => .ok [0]
  | some m =>
    match m.toByte with
    | some b => .ok [1, b]
    | none =>
      .error (.error (.envelopeDecode ("ns_split_mode encode: "
        ++ "namespace code overflow: all codes in 13..65534 are exhausted")))

def encodeEnvelopeFields (x : External) (e : CodecEnvelope x.Cid) : Except Stop (List UInt8) := do
  let numParents := e.parents.length
  require (numParents ≤ MAX_PARENTS)
    (.envelopeEncode s!"parents has {numParents} entries, max is {MAX_PARENTS}")
  let version : Int64 := if numParents ≤ 1 then 2 else 3
  let txnMeta ← encodeTxnMetaField e.txnMeta
  let parents ← encodeParents x e.parents
  let nsDelta := if e.namespaceDelta.entries.isEmpty then [] else encodeNsDelta e.namespaceDelta
  let txn ← encodeTxnField x e.txn
  let time := e.time.elim [] encodeLenStr
  let txnSignature := e.txnSignature.elim [] encodeTxnSignature
  let graphs ← encodeGraphExtension e.graphDelta
  let mode ← encodeModeExtension e.nsSplitMode
  pure (encodeVarint (zigzagEncode version).toNat ++ (presenceFlags e :: (txnMeta ++ (parents
    ++ (nsDelta ++ (txn ++ (time ++ (txnSignature ++ (graphs ++ mode)))))))))

def encodeEnvelope (x : External) (c : Commit x.Cid (Flake x)) : Except Stop (List UInt8) :=
  encodeEnvelopeFields x (CodecEnvelope.fromCommit c)

/-! ## Reading -/

variable (build : Build)

def decodeLenStr : Dec String := decodeStr build (.envelopeDecode "invalid UTF-8")

def decodeLenBytes : Dec (List UInt8) := do
  let len ← decodeVarint build
  ensure (len ≤ MAX_CID_BYTES)
    (.envelopeDecode s!"CID byte length {len} exceeds maximum {MAX_CID_BYTES}")
  readExact len

variable (x : External)

/-- A content id behind its length; `what` names it in the error. -/
def decodeCid (build : Build) (what : String) : Dec x.Cid := do
  let bytes ← decodeLenBytes build
  match x.cidFromBytes bytes with
  | .ok id => pure id
  | .error e => fail (.envelopeDecode ("invalid " ++ what ++ " CID: " ++ e))

def decodeCommitId (build : Build) : Dec x.Cid := decodeCid x build "commit id"

def insertAll (entries : List (UInt16 × String)) : SortedMap UInt16 String :=
  entries.foldl (fun m e => m.insert e.1 e.2) SortedMap.empty

def decodeNsEntry : Dec (UInt16 × String) := do
  let code ← decodeU16 build
  let iri ← decodeLenStr build
  pure (code, iri)

def decodeNsDelta : Dec (SortedMap UInt16 String) := do
  let count ← decodeVarint build
  liftExcept (withCapacity build count)
  let entries ← repeatRead (decodeNsEntry build) count
  pure (insertAll entries)

def decodeGraphEntry : Dec (UInt16 × String) := do
  let raw ← decodeVarint build
  ensure (raw < 2 ^ 16) (.gIdOutOfRange raw)
  let iri ← decodeLenStr build
  pure (UInt16.ofNat raw, iri)

def decodeGraphDelta : Dec (SortedMap UInt16 String) := do
  let count ← decodeVarint build
  liftExcept (withCapacity build count)
  let entries ← repeatRead (decodeGraphEntry build) count
  pure (insertAll entries)

def decodeTxnMetaBody (tag : UInt8) : Dec TxnMetaValue :=
  match tag.toNat with
  | 0 => do
    let s ← decodeLenStr build
    pure (.string s)
  | 1 => do
    let value ← decodeLenStr build
    let dtNs ← decodeU16 build
    let dtName ← decodeLenStr build
    pure (.typedLiteral value dtNs dtName)
  | 2 => do
    let value ← decodeLenStr build
    let lang ← decodeLenStr build
    pure (.langString value lang)
  | 3 => do
    let ns ← decodeU16 build
    let name ← decodeLenStr build
    pure (.ref ns name)
  | 4 => do
    let n ← decodeZigzag build
    pure (.long n)
  | 5 => do
    let bytes ← readExact 8
    let d := f64FromLe bytes
    ensure d.isFinite (.envelopeDecode "txn_meta contains non-finite double value")
    pure (.double d)
  | 6 => do
    let b ← readU8
    pure (.boolean (b != 0))
  | other => fail (.envelopeDecode s!"unknown txn_meta value tag: {other}")

def decodeTxnMetaValue : Dec TxnMetaValue := do
  let tag ← readU8
  decodeTxnMetaBody build tag

def decodeTxnMetaEntry : Dec TxnMetaEntry := do
  let predicateNs ← decodeU16 build
  let predicateName ← decodeLenStr build
  let value ← decodeTxnMetaValue build
  pure { predicateNs, predicateName, value }

def decodeTxnMeta : Dec (List TxnMetaEntry) := do
  let count ← decodeVarint build
  ensure (count ≤ MAX_TXN_META_ENTRIES)
    (.envelopeDecode s!"txn_meta entry count {count} exceeds maximum {MAX_TXN_META_ENTRIES}")
  repeatRead (decodeTxnMetaEntry build) count

def decodeParents (build : Build) (v : ℤ) : Dec (List x.Cid) :=
  if v = 3 then do
    let count ← decodeVarint build
    ensure (count ≤ MAX_PARENTS)
      (.envelopeDecode s!"parents count {count} exceeds maximum {MAX_PARENTS}")
    repeatRead (decodeCommitId x build) count
  else do
    let id ← decodeCommitId x build
    pure [id]

/-- A string of at most 256 bytes; `field` names it in the error. -/
def decodeShortStr (field : String) : Dec String := do
  let s ← decodeLenStr build
  let len := (asBytes s).length
  ensure (len ≤ 256) (.envelopeDecode s!"txn_signature {field} length {len} exceeds maximum 256")
  pure s

def decodeTxnId (hasTxnId : UInt8) : Dec (Option String) :=
  if hasTxnId != 0 then do
    let id ← decodeShortStr build "txn_id"
    pure (some id)
  else pure none

def decodeTxnSignature : Dec TxnSignature := do
  let signer ← decodeShortStr build "signer"
  let hasTxnId ← readU8
  let txnId ← decodeTxnId build hasTxnId
  pure { signer, txnId }

/-- An optional extension: nothing when the bytes have ended, else a byte that says whether it is
there. -/
def extension {α : Type} (absent : α) (p : Dec α) : Dec α := fun bs =>
  match bs with
  | [] => .ok (absent, [])
  | b :: rest => if b != 0 then p.run rest else .ok (absent, rest)

def decodeMode : Dec (Option NsSplitMode) := do
  let b ← readU8
  pure (some (NsSplitMode.fromByte b))

/-- The version number that fits the format. -/
def decodeVersion : Dec ℤ := do
  let raw ← decodeZigzag build
  let v := raw.toInt32.toInt
  ensure (v == 2 || v == 3)
    (.envelopeDecode s!"unsupported envelope version: {v} (expected 2 or 3)")
  pure v

def decodeFlags : Dec UInt8 := do
  let flags ← readU8
  let unknown := flags &&& ~~~KNOWN_FLAGS
  ensure (unknown == 0) (.envelopeDecode ("unknown envelope flags: 0x" ++ hexDigits unknown))
  pure flags

/-- The version, the flags and the fields they announce. -/
def decodeFields (build : Build) : Dec (CodecEnvelope x.Cid) := do
  let v ← decodeVersion build
  let flags ← decodeFlags
  let txnMeta ← whenFlag flags FLAG_TXN_META [] (decodeTxnMeta build)
  let parents ← whenFlag flags FLAG_PARENT [] (decodeParents x build v)
  let namespaceDelta ←
    whenFlag flags FLAG_NAMESPACE_DELTA SortedMap.empty (decodeNsDelta build)
  let txn ← whenFlag flags FLAG_TXN none (do
    let id ← decodeCid x build "txn"
    pure (some id))
  let time ← whenFlag flags FLAG_TIME none (do
    let s ← decodeLenStr build
    pure (some s))
  let txnSignature ← whenFlag flags FLAG_TXN_SIGNATURE none (do
    let sig ← decodeTxnSignature build
    pure (some sig))
  pure { t := 0, parents, namespaceDelta, txn, time, txnSignature, txnMeta,
         graphDelta := SortedMap.empty, nsSplitMode := none }

def decodeExtensions :
    Dec (SortedMap UInt16 String × Option NsSplitMode) := do
  let graphDelta ← extension SortedMap.empty (decodeGraphDelta build)
  let nsSplitMode ← extension none decodeMode
  pure (graphDelta, nsSplitMode)

def decodeEnvelope (build : Build) (data : List UInt8) :
    Except Stop (CodecEnvelope x.Cid) := do
  let (e, rest) ← (decodeFields x build).run data
  let ((graphDelta, nsSplitMode), rest) ← (decodeExtensions build).run rest
  let consumed := data.length - rest.length
  let total := data.length
  require rest.isEmpty
    (.envelopeDecode s!"trailing bytes: consumed {consumed} of {total} bytes")
  pure { e with graphDelta, nsSplitMode }

end Fluree.Codec

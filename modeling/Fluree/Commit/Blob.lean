import Fluree.Commit.Envelope

/-!
# Commit blobs

`[header][envelope][ops][dictionaries][footer][signature block]`. `writeCommit` lays a commit out;
`readCommitV4` reads it back, `readCommitEnvelopeV4` only its envelope, and `loadCommitOpsV4` with
`forEachOp` hands out its raw ops.
-/

namespace Fluree.Codec

open Lib (leBytes leNat Reader repeatRead)

/-- The largest number of bytes a `Vec<u8>` holds, plus one. -/
def VEC_BOUND : ℕ := 2 ^ 63

/-- A `Vec<u8>` that outgrows its bound panics. -/
def vec (bytes : List UInt8) : Except Stop (List UInt8) :=
  if bytes.length < VEC_BOUND then .ok bytes else .error .panic

/-! ## Writing -/

variable (x : External)

def didFromPubkey (pubkey : List UInt8) : String := "did:key:z" ++ x.base58 ([0xed, 0x01] ++ pubkey)

/-- The signature that is known before the body: only its size counts. -/
def blankSignature (key : x.SigningKey) : CommitSignature where
  signer := didFromPubkey x (x.verifyingKey key).1
  algo := ALGO_ED25519
  signature := ⟨List.replicate 64 0, List.length_replicate⟩
  metadata := none

/-- The length of the signature block as the header stores it, in 16 bits. -/
def preSigBlockLen (signing : Option (x.SigningKey × String)) : ℕ :=
  match signing with
  | some (key, _) => sigBlockSize [blankSignature x key] % 2 ^ 16
  | none => 0

/-- The op section and whether it is compressed: only when that makes it smaller. -/
def opsSection (compress : Bool) (opsRaw : List UInt8) :
    Except Stop (List UInt8 × Bool) :=
  if compress && !opsRaw.isEmpty then
    match x.zstdEncode opsRaw with
    | .error e => .error (.error (.compressionFailed e))
    | .ok compressed =>
      if compressed.length < opsRaw.length then .ok (compressed, true) else .ok (opsRaw, false)
  else .ok (opsRaw, false)

/-- Where each dictionary lies behind `start`; lengths are stored in 32 bits. -/
def dictLocations (start : ℕ) (d : Five (List UInt8)) : Five DictLocation :=
  let s1 := start + d.graph.length
  let s2 := s1 + d.subject.length
  let s3 := s2 + d.predicate.length
  let s4 := s3 + d.datatype.length
  ⟨⟨start, d.graph.length % 2 ^ 32⟩, ⟨s1, d.subject.length % 2 ^ 32⟩,
    ⟨s2, d.predicate.length % 2 ^ 32⟩, ⟨s3, d.datatype.length % 2 ^ 32⟩,
    ⟨s4, d.objectRef.length % 2 ^ 32⟩⟩

def writeBody (header : CommitHeader) (envelope ops : List UInt8) (dicts : Five (List UInt8)) :
    List UInt8 :=
  let front := header.writeTo ++ (envelope ++ ops)
  let footer : CommitFooter :=
    { dicts := dictLocations front.length dicts, opsSectionLen := ops.length % 2 ^ 32 }
  front ++ (dicts.toList.flatten ++ footer.writeTo)

def signatureBlock (body : List UInt8) :
    Option (x.SigningKey × String) → List UInt8
  | none => []
  | some (key, ledgerId) =>
    let signature := x.signCommitDigest key (x.sha256 body) ledgerId
    encodeSigBlock [{ blankSignature x key with signature }]

variable (build : Build)

def writeCommit (c : Commit x.Cid (Flake x)) (compress : Bool)
    (signing : Option (x.SigningKey × String)) : Except Stop (List UInt8) := do
  require (0 ≤ c.t ∧ c.t < 2 ^ 32) (.tOutOfRange c.t)
  let sigLen := preSigBlockLen x signing
  let envelopeBytes ← encodeEnvelope x c
  let (opsRaw, dicts) ← encodeOps x build CommitDicts.new c.flakes
  let opsRaw ← vec opsRaw
  let (ops, isCompressed) ← opsSection x compress opsRaw
  let dictBytes := dicts.map StringDictBuilder.serialize
  let header : CommitHeader := {
    version := VERSION
    flags := (if isCompressed then FLAG_ZSTD else 0)
      ||| (if signing.isSome then FLAG_HAS_COMMIT_SIG else 0)
    t := c.t
    opCount := c.flakes.length % 2 ^ 32
    envelopeLen := envelopeBytes.length % 2 ^ 32
    sigBlockLen := sigLen }
  let body ← vec (writeBody header envelopeBytes ops dictBytes)
  vec (body ++ signatureBlock x body signing)

/-! ## Reading -/

variable (bytes : List UInt8)

/-- The header of a blob that is large enough. -/
def readHeader : Except Stop CommitHeader := do
  require (MIN_COMMIT_LEN ≤ bytes.length) (.tooSmall bytes.length MIN_COMMIT_LEN)
  liftError (CommitHeader.readFrom bytes)

def bodyEnd (h : CommitHeader) : Except Stop ℕ :=
  if h.hasSigBlock then do
    require (h.sigBlockLen ≤ bytes.length) (.tooSmall bytes.length h.sigBlockLen)
    subUsize build bytes.length h.sigBlockLen
  else .ok bytes.length

def envelopeEnd (h : CommitHeader) : ℕ := HEADER_LEN + h.envelopeLen

def readEnvelope (h : CommitHeader) :
    Except Stop (CodecEnvelope x.Cid) := do
  require (envelopeEnd h ≤ bytes.length) (.tooSmall bytes.length (envelopeEnd h))
  let data ← slice bytes HEADER_LEN (envelopeEnd h)
  decodeEnvelope x build data

/-- One dictionary, which lies behind the previous region and ends before the footer. -/
def loadOne (validEnd : ℕ) (name : String)
    (loc : DictLocation) (prevEnd : ℕ) : Except Stop (StringDict × ℕ) := do
  let start := loc.offset
  let stop ← addUsize build start loc.len
  require (prevEnd ≤ start) (.invalidDictionary
    s!"{name} dict at offset {start} overlaps previous region ending at {prevEnd}")
  let len := loc.len
  require (stop ≤ validEnd) (.invalidDictionary
    s!"{name} dict at offset {start} len {len} extends past dict region end {validEnd}")
  let data ← slice bytes start stop
  let dict ← StringDict.deserialize build data
  pure (dict, stop)

def loadDicts (footer : CommitFooter)
    (validStart validEnd : ℕ) : Except Stop ReadDicts := do
  let (graph, e) ← loadOne build bytes validEnd "graph" footer.dicts.graph validStart
  let (subject, e) ← loadOne build bytes validEnd "subject" footer.dicts.subject e
  let (predicate, e) ← loadOne build bytes validEnd "predicate" footer.dicts.predicate e
  let (datatype, e) ← loadOne build bytes validEnd "datatype" footer.dicts.datatype e
  let (objectRef, _) ← loadOne build bytes validEnd "object_ref" footer.dicts.objectRef e
  pure { graph, subject, predicate, datatype, objectRef }

def decompress (h : CommitHeader) (opsBytes : List UInt8) :
    Except Stop (List UInt8) :=
  if h.compressed then
    match x.zstdDecode opsBytes with
    | .ok ops => .ok ops
    | .error e => .error (.error (.decompressionFailed e))
  else .ok opsBytes

/-- The dictionaries and the op bytes, decompressed. -/
def readSections (h : CommitHeader)
    (bodyEnd : ℕ) : Except Stop (ReadDicts × List UInt8) := do
  let footerStart ← subUsize build bodyEnd FOOTER_LEN
  let footerBytes ← slice bytes footerStart bodyEnd
  let footer ← liftError (CommitFooter.readFrom footerBytes)
  let opsEnd := envelopeEnd h + footer.opsSectionLen
  require (opsEnd ≤ footerStart) (.invalidOp "ops section extends into footer")
  let dicts ← loadDicts build bytes footer opsEnd footerStart
  let opsBytes ← slice bytes (envelopeEnd h) opsEnd
  let ops ← decompress x h opsBytes
  pure (dicts, ops)

/-- Bytes behind the last op are not looked at. -/
def decodeFlakes (h : CommitHeader) (dicts : ReadDicts)
    (ops : List UInt8) : Except Stop (List (Flake x)) := do
  withCapacity build h.opCount
  let (flakes, _) ← (repeatRead (decodeOp x build dicts h.t) h.opCount).run ops
  pure flakes

def readSignatures (h : CommitHeader) (bodyEnd : ℕ) :
    Except Stop (List CommitSignature) :=
  if h.hasSigBlock then do
    let data ← slice bytes bodyEnd (bodyEnd + h.sigBlockLen)
    decodeSigBlock data
  else .ok []

def readCommitV4 :
    Except Stop (Commit x.Cid (Flake x)) := do
  let h ← readHeader bytes
  let bodyEnd ← bodyEnd build bytes h
  let commitSignatures ← readSignatures bytes h bodyEnd
  let e ← readEnvelope x build bytes h
  let (dicts, ops) ← readSections x build bytes h bodyEnd
  let flakes ← decodeFlakes x build h dicts ops
  pure {
    id := some (x.commitId bytes)
    t := h.t
    time := e.time
    flakes
    parents := e.parents
    txn := e.txn
    namespaceDelta := e.namespaceDelta
    txnSignature := e.txnSignature
    commitSignatures
    txnMeta := e.txnMeta
    graphDelta := e.graphDelta
    nsSplitMode := e.nsSplitMode }

def readCommitEnvelopeV4 :
    Except Stop (CommitEnvelope x.Cid) := do
  let h ← liftError (CommitHeader.readFrom bytes)
  let e ← readEnvelope x build bytes h
  pure {
    t := h.t
    parents := e.parents
    txn := e.txn
    namespaceDelta := e.namespaceDelta
    txnMeta := e.txnMeta
    graphDelta := e.graphDelta
    nsSplitMode := e.nsSplitMode }

structure CommitOps (x : External) where
  envelope : CodecEnvelope x.Cid
  t : ℤ
  opCount : ℕ
  dicts : ReadDicts
  opsData : List UInt8

def loadCommitOpsV4 :
    Except Stop (CommitOps x) := do
  let h ← readHeader bytes
  let bodyEnd ← bodyEnd build bytes h
  let e ← readEnvelope x build bytes h
  let (dicts, opsData) ← readSections x build bytes h bodyEnd
  pure { envelope := { e with t := h.t }, t := h.t, opCount := h.opCount, dicts, opsData }

/-- Decode ops one by one and hand each to the callback, which works on a state and may fail. -/
def forEachFrom {σ : Type} (build : Build) (dicts : ReadDicts)
    (f : σ → RawOp → Except CommitCodecError σ) : ℕ → σ → Dec σ
  | 0, st => pure st
  | n + 1, st => do
    let op ← decodeRawOp build dicts
    match f st op with
    | .error e => fail e
    | .ok st => forEachFrom build dicts f n st

/-- A build with checks asserts that the ops end where their bytes end. -/
def forEachOp {σ : Type} (x : External) (build : Build) (ops : CommitOps x)
    (f : σ → RawOp → Except CommitCodecError σ) (st : σ) : Except Stop σ := do
  let (st, rest) ← (forEachFrom build ops.dicts f ops.opCount st).run ops.opsData
  if build.checks && !rest.isEmpty then .error .panic else .ok st

def rawOps (ops : CommitOps x) : Except Stop (List RawOp) :=
  forEachOp x build ops (fun st op => .ok (st ++ [op])) []

/-! ## Version dispatch -/

inductive CommitBlobVersion where
  | v3
  | v4

def detectVersion : Except Stop CommitBlobVersion :=
  if bytes.length < HEADER_LEN then .error (.error (.tooSmall bytes.length HEADER_LEN))
  else if bytes.take 4 ≠ MAGIC then .error (.error .invalidMagic)
  else
    let v := bytes.getD 4 0
    if v = VERSION_V3 then .ok .v3
    else if v = VERSION then .ok .v4
    else .error (.error (.unsupportedVersion v))

/-- The readers of the older format, which this development leaves open. -/
structure LegacyV3 (x : External) where
  readCommit : List UInt8 → Except Stop (Commit x.Cid (Flake x))
  readCommitEnvelope : List UInt8 → Except Stop (CommitEnvelope x.Cid)
  loadCommitOps : List UInt8 → Except Stop (CommitOps x)

section Dispatch

variable (x : External) (build : Build) (legacy : LegacyV3 x) (bytes : List UInt8)

def readCommit : Except Stop (Commit x.Cid (Flake x)) := do
  match ← detectVersion bytes with
  | .v3 => legacy.readCommit bytes
  | .v4 => readCommitV4 x build bytes

def readCommitEnvelope : Except Stop (CommitEnvelope x.Cid) := do
  match ← detectVersion bytes with
  | .v3 => legacy.readCommitEnvelope bytes
  | .v4 => readCommitEnvelopeV4 x build bytes

def loadCommitOps : Except Stop (CommitOps x) := do
  match ← detectVersion bytes with
  | .v3 => legacy.loadCommitOps bytes
  | .v4 => loadCommitOpsV4 x build bytes

end Dispatch

end Fluree.Codec

import Fluree.Commit.Types
import Fluree.Lib.Reader

/-!
# Wire primitives of the commit codec

Varints, fixed-width fields, strings, the header and footer, the signature block and the string
dictionaries of a commit blob.

A decoder stops with a codec error or with a panic. What panics depends on the build: overflow
checks and debug assertions are on or off, and a capacity beyond what the allocator grants ends
the program. Lengths and offsets are `usize` of 64 bits.
-/

namespace Fluree.Codec

open Lib (leBytes leNat Reader repeatRead)

inductive CommitCodecError where
  | invalidMagic
  | unsupportedVersion (v : UInt8)
  | tooSmall (got min : ℕ)
  | invalidDictionary (msg : String)
  | invalidOp (msg : String)
  | invalidOpTag (tag : UInt8)
  | decompressionFailed (msg : String)
  | compressionFailed (msg : String)
  | envelopeDecode (msg : String)
  | envelopeEncode (msg : String)
  | unexpectedEof
  | limitExceeded (msg : String)
  | tOutOfRange (t : ℤ)
  | gIdOutOfRange (raw : ℕ)
  | negativeListIndex (i : Int32)
  deriving DecidableEq

/-- How a computation ends without a result. -/
inductive Stop where
  | error (e : CommitCodecError)
  | panic
  deriving DecidableEq

/-- The build: overflow checks with debug assertions, and the largest capacity granted. -/
structure Build where
  checks : Bool
  limit : ℕ

abbrev Dec (α : Type) := Reader Stop α

def fail {α : Type} (e : CommitCodecError) : Dec α := fun _ => .error (.error e)

def liftExcept {α : Type} (x : Except Stop α) : Dec α := fun bs => x.map (·, bs)

/-- A result that is `err` unless the condition holds. -/
def ensure (c : Bool) (e : CommitCodecError) : Dec Unit := if c then pure () else fail e

def whenFlag {α : Type} (flags flag : UInt8) (absent : α) (p : Dec α) : Dec α :=
  if flags &&& flag != 0 then p else pure absent

def liftError {α : Type} : Except CommitCodecError α → Except Stop α
  | .ok a => .ok a
  | .error e => .error (.error e)

variable (build : Build)

/-- Add on `usize`. -/
def addUsize (a b : ℕ) : Except Stop ℕ :=
  if a + b < 2 ^ 64 then .ok (a + b)
  else if build.checks then .error .panic
  else .ok ((a + b) % 2 ^ 64)

/-- Subtract on `usize`. -/
def subUsize (a b : ℕ) : Except Stop ℕ :=
  if b ≤ a then .ok (a - b)
  else if build.checks then .error .panic
  else .ok (a + 2 ^ 64 - b)

/-- Add on `u32`. -/
def addU32 (a b : ℕ) : Except Stop ℕ :=
  if a + b < 2 ^ 32 then .ok (a + b)
  else if build.checks then .error .panic
  else .ok ((a + b) % 2 ^ 32)

/-- Shift a `u64` left; without checks only the low six bits of the amount count. -/
def shlU64 (x shift : ℕ) : Except Stop ℕ :=
  if shift < 64 then .ok (x * 2 ^ shift % 2 ^ 64)
  else if build.checks then .error .panic
  else .ok (x * 2 ^ (shift % 64) % 2 ^ 64)

/-- `bytes[start..end]`. -/
def slice (bytes : List UInt8) (start stop : ℕ) : Except Stop (List UInt8) :=
  if start ≤ stop ∧ stop ≤ bytes.length then .ok ((bytes.drop start).take (stop - start))
  else .error .panic

def withCapacity (n : ℕ) : Except Stop Unit := if n ≤ build.limit then .ok () else .error .panic

/-! ## Bytes and varints -/

def readExact (n : ℕ) : Dec (List UInt8) := fun bs =>
  if bs.length < n then .error (.error .unexpectedEof) else .ok (bs.take n, bs.drop n)

def readU8 : Dec UInt8 := fun bs =>
  match bs with
  | [] => .error (.error .unexpectedEof)
  | b :: rest => .ok (b, rest)

/-- At most ten groups of seven bits, for a `u64`. -/
def encodeVarintLoop : ℕ → ℕ → List UInt8
  | 0, _ => []
  | fuel + 1, value =>
    if value / 128 = 0 then [UInt8.ofNat (value % 128)]
    else UInt8.ofNat (value % 128 + 128) :: encodeVarintLoop fuel (value / 128)

def encodeVarint (value : ℕ) : List UInt8 := encodeVarintLoop 10 value

def decodeVarintLoop (build : Build) (shift result : ℕ) :
    List UInt8 → Except Stop (ℕ × List UInt8)
  | [] => .error (.error .unexpectedEof)
  | byte :: rest =>
    let payload := byte.toNat % 128
    if 63 ≤ shift ∧ 1 < payload then .error (.error (.invalidOp "varint overflow"))
    else
      match shlU64 build payload shift with
      | .error e => .error e
      | .ok term =>
        let result := result ||| term
        if byte.toNat < 128 then .ok (result, rest)
        else
          match addU32 build shift 7 with
          | .error e => .error e
          | .ok shift => decodeVarintLoop build shift result rest

/-- A LEB128 number of 64 bits. -/
def decodeVarint : Dec ℕ := fun bs => decodeVarintLoop build 0 0 bs

def zigzagEncode (value : Int64) : UInt64 := ((value <<< 1) ^^^ (value >>> 63)).toUInt64

def zigzagDecode (value : UInt64) : Int64 := (value >>> 1).toInt64 ^^^ (-(value &&& 1).toInt64)

/-! ## Strings -/

def asBytes (s : String) : List UInt8 := s.toUTF8.data.toList

def fromUtf8 (bs : List UInt8) : Option String := String.fromUTF8? ⟨bs.toArray⟩

def encodeLenStr (s : String) : List UInt8 := encodeVarint (asBytes s).length ++ asBytes s

/-- A string of a known length; `bad` is the error for bytes that are not UTF-8. -/
def readStr (bad : CommitCodecError) (len : ℕ) : Dec String := do
  let bytes ← readExact len
  match fromUtf8 bytes with
  | some s => pure s
  | none => fail bad

/-- A string behind its length. -/
def decodeStr (bad : CommitCodecError) : Dec String := do
  let len ← decodeVarint build
  readStr bad len

def hexDigits (b : UInt8) : String :=
  String.ofList [Nat.digitChar (b.toNat / 16), Nat.digitChar (b.toNat % 16)]

/-! ## Header and footer -/

def MAGIC : List UInt8 := [0x46, 0x43, 0x56, 0x32]

def VERSION : UInt8 := 4

def VERSION_V3 : UInt8 := 3

def HEADER_LEN : ℕ := 32

def FOOTER_LEN : ℕ := 64

def MIN_COMMIT_LEN : ℕ := HEADER_LEN + FOOTER_LEN

def FLAG_ZSTD : UInt8 := 0x01

def FLAG_HAS_COMMIT_SIG : UInt8 := 0x02

structure CommitHeader where
  version : UInt8
  flags : UInt8
  t : ℤ
  opCount : ℕ
  envelopeLen : ℕ
  sigBlockLen : ℕ

namespace CommitHeader

variable (h : CommitHeader)

def writeTo : List UInt8 :=
  MAGIC ++ [h.version, h.flags] ++ leBytes 4 h.t.toNat ++ leBytes 4 h.opCount
    ++ leBytes 4 h.envelopeLen ++ leBytes 2 h.sigBlockLen ++ List.replicate 12 0

def readFrom (buf : List UInt8) : Except CommitCodecError CommitHeader :=
  if buf.length < HEADER_LEN then .error (.tooSmall buf.length HEADER_LEN)
  else if buf.take 4 ≠ MAGIC then .error .invalidMagic
  else
    let version := buf.getD 4 0
    if version ≠ VERSION ∧ version ≠ VERSION_V3 then .error (.unsupportedVersion version)
    else .ok {
      version := version
      flags := buf.getD 5 0
      t := leNat ((buf.drop 6).take 4)
      opCount := leNat ((buf.drop 10).take 4)
      envelopeLen := leNat ((buf.drop 14).take 4)
      sigBlockLen := leNat ((buf.drop 18).take 2) }

def hasSigBlock : Bool := h.flags &&& FLAG_HAS_COMMIT_SIG != 0 && decide (0 < h.sigBlockLen)

def compressed : Bool := h.flags &&& FLAG_ZSTD != 0

end CommitHeader

/-- One value for each of the five dictionaries. -/
structure Five (α : Type) where
  graph : α
  subject : α
  predicate : α
  datatype : α
  objectRef : α

namespace Five

def toList {α : Type} (d : Five α) : List α :=
  [d.graph, d.subject, d.predicate, d.datatype, d.objectRef]

def map {α β : Type} (f : α → β) (d : Five α) : Five β :=
  ⟨f d.graph, f d.subject, f d.predicate, f d.datatype, f d.objectRef⟩

end Five

structure DictLocation where
  offset : ℕ
  len : ℕ

structure CommitFooter where
  dicts : Five DictLocation
  opsSectionLen : ℕ

namespace CommitFooter

def writeLocation (d : DictLocation) : List UInt8 := leBytes 8 d.offset ++ leBytes 4 d.len

def writeTo (f : CommitFooter) : List UInt8 :=
  f.dicts.toList.flatMap writeLocation ++ leBytes 4 f.opsSectionLen

def readLocation (buf : List UInt8) (pos : ℕ) : DictLocation :=
  ⟨leNat ((buf.drop pos).take 8), leNat ((buf.drop (pos + 8)).take 4)⟩

def readFrom (buf : List UInt8) : Except CommitCodecError CommitFooter :=
  if buf.length < FOOTER_LEN then .error (.tooSmall buf.length FOOTER_LEN)
  else .ok {
    dicts := ⟨readLocation buf 0, readLocation buf 12, readLocation buf 24, readLocation buf 36,
      readLocation buf 48⟩
    opsSectionLen := leNat ((buf.drop 60).take 4) }

end CommitFooter

/-! ## Signature block -/

def ALGO_ED25519 : UInt8 := 0x01

def MAX_SIG_COUNT : ℕ := 64

def MAX_SIGNER_LEN : ℕ := 256

def MAX_METADATA_LEN : ℕ := 4096

def encodeSignature (sig : CommitSignature) : List UInt8 :=
  leBytes 2 (asBytes sig.signer).length ++ asBytes sig.signer ++ [sig.algo] ++ sig.signature.1
    ++ (match sig.metadata with
      | some bytes => leBytes 2 bytes.length ++ bytes
      | none => leBytes 2 0)

def encodeSigBlock (sigs : List CommitSignature) : List UInt8 :=
  leBytes 2 sigs.length ++ sigs.flatMap encodeSignature

def sigBlockSize (sigs : List CommitSignature) : ℕ :=
  2 + (sigs.map fun sig =>
    2 + (asBytes sig.signer).length + 1 + 64 + 2 + (sig.metadata.elim 0 List.length)).sum

def readU16 : Dec ℕ := do
  let bytes ← readExact 2
  pure (leNat bytes)

def decodeMetadata (metaLen : ℕ) : Dec (Option (List UInt8)) :=
  if 0 < metaLen then do
    ensure (metaLen ≤ MAX_METADATA_LEN)
      (.envelopeDecode s!"metadata length {metaLen} exceeds maximum {MAX_METADATA_LEN}")
    let bytes ← readExact metaLen
    pure (some bytes)
  else pure none

def decodeSignature : Dec CommitSignature := do
  let signerLen ← readU16
  ensure (signerLen ≤ MAX_SIGNER_LEN)
    (.envelopeDecode s!"signer length {signerLen} exceeds maximum {MAX_SIGNER_LEN}")
  let signer ← readStr (.envelopeDecode "invalid signer UTF-8") signerLen
  let algo ← readU8
  ensure (algo == ALGO_ED25519)
    (.envelopeDecode ("unknown signature algorithm: 0x" ++ hexDigits algo))
  let signature ← readExact 64
  let metaLen ← readU16
  let metadata ← decodeMetadata metaLen
  -- `read_exact` gave 64 bytes
  if h : signature.length = 64 then pure ⟨signer, algo, ⟨signature, h⟩, metadata⟩
  else liftExcept (.error .panic)

def decodeSigs : Dec (List CommitSignature) := do
  let sigCount ← readU16
  ensure (sigCount ≤ MAX_SIG_COUNT)
    (.envelopeDecode s!"signature count {sigCount} exceeds maximum {MAX_SIG_COUNT}")
  repeatRead decodeSignature sigCount

def decodeSigBlock (data : List UInt8) : Except Stop (List CommitSignature) :=
  match decodeSigs.run data with
  | .error e => .error e
  | .ok (sigs, rest) =>
    if rest.isEmpty then .ok sigs
    else
      let consumed := data.length - rest.length
      let total := data.length
      .error (.error (.envelopeDecode s!"signature block: consumed {consumed} of {total} bytes"))

/-! ## String dictionaries -/

/-- Strings in the order of their first use; the id of a string is its position plus one. -/
structure StringDictBuilder where
  entries : List String

namespace StringDictBuilder

def new : StringDictBuilder := ⟨[]⟩

def insert (build : Build) (d : StringDictBuilder) (s : String) :
    Except Stop (ℕ × StringDictBuilder) :=
  match addU32 build (d.entries.idxOf s % 2 ^ 32) 1 with
  | .error e => .error e
  | .ok id => .ok (id, if s ∈ d.entries then d else ⟨d.entries ++ [s]⟩)

def serialize (d : StringDictBuilder) : List UInt8 :=
  encodeVarint d.entries.length ++ d.entries.flatMap encodeLenStr

end StringDictBuilder

/-- The strings of a dictionary by id minus one. -/
structure StringDict where
  entries : List String

namespace StringDict

def readEntry (build : Build) : Dec String := do
  let len ← decodeVarint build
  let bytes : List UInt8 ← fun bs =>
    if bs.length < len then
      .error (.error (.invalidDictionary "string bytes extend past dictionary end"))
    else .ok (bs.take len, bs.drop len)
  match fromUtf8 bytes with
  | some s => pure s
  | none => fail (.invalidDictionary "invalid UTF-8")

def readEntries (build : Build) : Dec (List String) := do
  let count ← decodeVarint build
  liftExcept (withCapacity build count)
  repeatRead (readEntry build) count

/-- Bytes behind the last entry are not looked at. -/
def deserialize (build : Build) (data : List UInt8) : Except Stop StringDict :=
  match (readEntries build).run data with
  | .error e => .error e
  | .ok (entries, _) => .ok ⟨entries⟩

def get (d : StringDict) (localId : ℕ) : Except CommitCodecError String :=
  if localId = 0 then .error (.invalidDictionary "local_id 0 is reserved")
  else
    match d.entries[localId - 1]? with
    | some s => .ok s
    | none =>
      let len := d.entries.length
      .error (.invalidDictionary s!"local_id {localId} out of range (dict has {len} entries)")

end StringDict

end Fluree.Codec

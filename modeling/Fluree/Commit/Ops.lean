import Fluree.Commit.Wire
import Fluree.Core.Flake

/-!
# Ops of a commit

A flake is written as one op: each `Sid` as namespace code and id in a dictionary of the commit,
the object behind a tag, then flags with the language tag and list index. Two decoders read ops
back: `decodeOp` builds flakes, `decodeRawOp` hands out the parts.

The record `External` stands for code outside the repository, and for the parsers and printers of
lexical forms. Of the latter the model has the ways to panic: arithmetic that overflows, and the
timezone of a time of day, which is cut off by bytes.
-/

namespace Fluree.Codec

open Lib (leBytes leNat Reader repeatRead)

/-- Values that travel in their lexical form. -/
inductive LexKind where
  | dateTime
  | date
  | time
  | bigInt
  | decimal
  | gYear
  | gYearMonth
  | gMonth
  | gDay
  | gMonthDay
  | yearMonthDuration
  | dayTimeDuration
  | duration

/-- The name in the error for a lexical form that does not parse. -/
def LexKind.label : LexKind → String
  | dateTime => "datetime"
  | date => "date"
  | time => "time"
  | bigInt => "bigint"
  | decimal => "decimal"
  | gYear => "gYear"
  | gYearMonth => "gYearMonth"
  | gMonth => "gMonth"
  | gDay => "gDay"
  | gMonthDay => "gMonthDay"
  | yearMonthDuration => "yearMonthDuration"
  | dayTimeDuration => "dayTimeDuration"
  | duration => "duration"

/-- What the codec is given: content ids, lexical forms, compression and signing. -/
structure External where
  Cid : Type
  cidToBytes : Cid → List UInt8
  cidFromBytes : List UInt8 → Except String Cid
  /-- The content id of a commit blob. -/
  commitId : List UInt8 → Cid
  Val : LexKind → Type
  display : (k : LexKind) → Val k → String
  parse : (k : LexKind) → String → Except String (Val k)
  /-- The arithmetic of `parse` overflows. Without overflow checks it wraps. -/
  overflows : LexKind → String → Bool
  zstdEncode : List UInt8 → Except String (List UInt8)
  zstdDecode : List UInt8 → Except String (List UInt8)
  SigningKey : Type
  verifyingKey : SigningKey → { bs : List UInt8 // bs.length = 32 }
  base58 : List UInt8 → String
  sha256 : List UInt8 → List UInt8
  signCommitDigest : SigningKey → List UInt8 → String → { bs : List UInt8 // bs.length = 64 }

def normalizeLangTag (tag : String) : String := String.ofList (tag.toList.map Char.toLower)

namespace FlakeMeta

def withLang (lang : String) : FlakeMeta := ⟨some (normalizeLangTag lang), none⟩

def withIndex (i : Int32) : FlakeMeta := ⟨none, some i⟩

end FlakeMeta

inductive FlakeValue (x : External) where
  | ref (sid : Sid)
  | long (n : Int64)
  | double (d : F64)
  | string (s : String)
  | boolean (b : Bool)
  | lexical (kind : LexKind) (v : x.Val kind)
  | json (s : String)
  | null
  | geoPoint (bits : UInt64)
  | vector (elements : List F64)

structure Flake (x : External) where
  g : Option Sid
  s : Sid
  p : Sid
  o : FlakeValue x
  dt : Sid
  t : ℤ
  op : Bool
  m : Option FlakeMeta

/-! ## Tags and flags -/

inductive OTag where
  | ref
  | long
  | double
  | string
  | boolean
  | lexical (kind : LexKind)
  | json
  | null
  | geoPoint
  | vector

open OTag

namespace OTag

def toU8 : OTag → UInt8
  | ref => 0
  | long => 1
  | double => 2
  | string => 3
  | boolean => 4
  | lexical .dateTime => 5
  | lexical .date => 6
  | lexical .time => 7
  | lexical .bigInt => 8
  | lexical .decimal => 9
  | json => 10
  | null => 11
  | lexical .gYear => 12
  | lexical .gYearMonth => 13
  | lexical .gMonth => 14
  | lexical .gDay => 15
  | lexical .gMonthDay => 16
  | lexical .yearMonthDuration => 17
  | lexical .dayTimeDuration => 18
  | lexical .duration => 19
  | geoPoint => 20
  | vector => 21

def fromU8 (b : UInt8) : Except CommitCodecError OTag :=
  match b.toNat with
  | 0 => .ok ref
  | 1 => .ok long
  | 2 => .ok double
  | 3 => .ok string
  | 4 => .ok boolean
  | 5 => .ok (lexical .dateTime)
  | 6 => .ok (lexical .date)
  | 7 => .ok (lexical .time)
  | 8 => .ok (lexical .bigInt)
  | 9 => .ok (lexical .decimal)
  | 10 => .ok json
  | 11 => .ok null
  | 12 => .ok (lexical .gYear)
  | 13 => .ok (lexical .gYearMonth)
  | 14 => .ok (lexical .gMonth)
  | 15 => .ok (lexical .gDay)
  | 16 => .ok (lexical .gMonthDay)
  | 17 => .ok (lexical .yearMonthDuration)
  | 18 => .ok (lexical .dayTimeDuration)
  | 19 => .ok (lexical .duration)
  | 20 => .ok geoPoint
  | 21 => .ok vector
  | _ => .error (.invalidOpTag b)

end OTag

def OP_FLAG_ASSERT : UInt8 := 0x01

def OP_FLAG_HAS_LANG : UInt8 := 0x02

def OP_FLAG_HAS_I : UInt8 := 0x04

/-! ## Writing -/

abbrev CommitDicts := Five StringDictBuilder

def CommitDicts.new : CommitDicts :=
  ⟨StringDictBuilder.new, StringDictBuilder.new, StringDictBuilder.new, StringDictBuilder.new,
    StringDictBuilder.new⟩

variable (build : Build)

/-- Namespace code and id of the name. -/
def encodeSid (dict : StringDictBuilder) (sid : Sid) :
    Except Stop (List UInt8 × StringDictBuilder) := do
  let (id, dict) ← dict.insert build sid.name
  pure (encodeVarint sid.namespaceCode.toNat ++ encodeVarint id, dict)

/-- The length is filled in behind the text: one byte when it is short. -/
def encodeLenPrefixedDisplay (text : String) : List UInt8 :=
  let len := (asBytes text).length
  if len < 128 then UInt8.ofNat len :: asBytes text else encodeVarint len ++ asBytes text

def encodeF64 (d : F64) : List UInt8 := leBytes 8 d.bits.toNat

def encodeObject (x : External) (build : Build) (dicts : CommitDicts) :
    FlakeValue x → Except Stop (List UInt8 × CommitDicts)
  | .ref sid => do
    let (bytes, dict) ← encodeSid build dicts.objectRef sid
    pure (ref.toU8 :: bytes, { dicts with objectRef := dict })
  | .long n => pure (long.toU8 :: encodeVarint (zigzagEncode n).toNat, dicts)
  | .double d => pure (double.toU8 :: encodeF64 d, dicts)
  | .string s => pure (string.toU8 :: encodeLenStr s, dicts)
  | .boolean b => pure ([boolean.toU8, if b then 1 else 0], dicts)
  | .lexical kind v =>
    pure ((lexical kind).toU8 :: encodeLenPrefixedDisplay (x.display kind v), dicts)
  | .json s => pure (json.toU8 :: encodeLenStr s, dicts)
  | .null => pure ([null.toU8], dicts)
  | .geoPoint bits =>
    let (lat, lng) := decodeGeoPoint bits
    pure (geoPoint.toU8 :: (encodeF64 lat ++ encodeF64 lng), dicts)
  | .vector elements =>
    pure (vector.toU8 :: (encodeVarint elements.length ++ elements.flatMap encodeF64), dicts)

/-- Flag bits, language tag and list index. -/
def encodeTail (op : Bool) (lang : Option String) (i : Option Int32) :
    Except Stop (List UInt8) :=
  let flags := (if op then OP_FLAG_ASSERT else 0) ||| (if lang.isSome then OP_FLAG_HAS_LANG else 0)
    ||| (if i.isSome then OP_FLAG_HAS_I else 0)
  let langBytes := lang.elim [] encodeLenStr
  match i with
  | none => .ok (flags :: langBytes)
  | some i =>
    if i < 0 then .error (.error (.negativeListIndex i))
    else .ok (flags :: (langBytes ++ encodeVarint i.toInt.toNat))

/-- `(0, 0)` for the default graph. -/
def encodeGraph (dicts : CommitDicts) :
    Option Sid → Except Stop (List UInt8 × CommitDicts)
  | some g => do
    let (bytes, dict) ← encodeSid build dicts.graph g
    pure (bytes, { dicts with graph := dict })
  | none => pure (encodeVarint 0 ++ encodeVarint 0, dicts)

def encodeOp (x : External) (build : Build) (dicts : CommitDicts) (flake : Flake x) :
    Except Stop (List UInt8 × CommitDicts) := do
  let (g, dicts) ← encodeGraph build dicts flake.g
  let (s, dict) ← encodeSid build dicts.subject flake.s
  let dicts := { dicts with subject := dict }
  let (p, dict) ← encodeSid build dicts.predicate flake.p
  let dicts := { dicts with predicate := dict }
  let (dt, dict) ← encodeSid build dicts.datatype flake.dt
  let dicts := { dicts with datatype := dict }
  let (o, dicts) ← encodeObject x build dicts flake.o
  let tail ← encodeTail flake.op (flake.m.bind (·.lang)) (flake.m.bind (·.i))
  pure (g ++ (s ++ (p ++ (dt ++ (o ++ tail)))), dicts)

/-- The op stream and the dictionaries it fills. -/
def encodeOps (x : External) (build : Build) :
    CommitDicts → List (Flake x) → Except Stop (List UInt8 × CommitDicts)
  | dicts, [] => .ok ([], dicts)
  | dicts, flake :: flakes => do
    let (op, dicts) ← encodeOp x build dicts flake
    let (ops, dicts) ← encodeOps x build dicts flakes
    pure (op ++ ops, dicts)

/-! ## Reading the parts of an op -/

abbrev ReadDicts := Five StringDict

variable (dict : StringDict)

def getName (id : ℕ) : Dec String :=
  match dict.get id with
  | .ok s => pure s
  | .error e => fail e

inductive RawObject where
  | ref (nsCode : UInt16) (name : String)
  | long (n : Int64)
  | double (d : F64)
  | str (s : String)
  | boolean (b : Bool)
  | lexicalStr (kind : LexKind) (s : String)
  | jsonStr (s : String)
  | null
  | geoPoint (lat lng : F64)
  | vector (elements : List F64)

structure RawOp where
  gNsCode : UInt16
  gName : String
  sNsCode : UInt16
  sName : String
  pNsCode : UInt16
  pName : String
  dtNsCode : UInt16
  dtName : String
  o : RawObject
  op : Bool
  lang : Option String
  i : Option Int32

def decodeInlineStr : Dec String := decodeStr build (.invalidOp "invalid UTF-8")

def f64FromLe (bytes : List UInt8) : F64 := ⟨UInt64.ofNat (leNat bytes)⟩

def f64sFromLe : ℕ → List UInt8 → List F64
  | 0, _ => []
  | n + 1, bytes => f64FromLe (bytes.take 8) :: f64sFromLe n (bytes.drop 8)

/-- `decode_varint(..)? as u32`. -/
def decodeId : Dec ℕ := do
  let raw ← decodeVarint build
  pure (raw % 2 ^ 32)

/-- `decode_varint(..)? as u16`. -/
def decodeU16 : Dec UInt16 := do
  let raw ← decodeVarint build
  pure (UInt16.ofNat raw)

/-- `decode_varint(..)?` as a number of 64 bits with sign. -/
def decodeZigzag : Dec Int64 := do
  let raw ← decodeVarint build
  pure (zigzagDecode (UInt64.ofNat raw))

def decodeRawObject (dicts : ReadDicts) : OTag → Dec RawObject
  | .ref => do
    let nsCode ← decodeU16 build
    let nameId ← decodeId build
    let name ← getName dicts.objectRef nameId
    pure (.ref nsCode name)
  | .long => do
    let n ← decodeZigzag build
    pure (.long n)
  | .double => do
    let bytes ← readExact 8
    pure (.double (f64FromLe bytes))
  | .string => do
    let s ← decodeInlineStr build
    pure (.str s)
  | .boolean => do
    let b ← readU8
    pure (.boolean (b != 0))
  | .lexical kind => do
    let s ← decodeInlineStr build
    pure (.lexicalStr kind s)
  | .json => do
    let s ← decodeInlineStr build
    pure (.jsonStr s)
  | .null => pure .null
  | .geoPoint => do
    let bytes ← readExact 16
    pure (.geoPoint (f64FromLe (bytes.take 8)) (f64FromLe (bytes.drop 8)))
  | .vector => do
    let len ← decodeVarint build
    let bytes ← readExact (len * 8)
    pure (.vector (f64sFromLe len bytes))

def decodeTag : Dec OTag := do
  let b ← readU8
  match fromU8 b with
  | .ok tag => pure tag
  | .error e => fail e

def decodeIndex : Dec (Option Int32) := do
  let raw ← decodeVarint build
  ensure (raw < 2 ^ 31) (.invalidOp s!"list index {raw} exceeds i32::MAX")
  pure (some (Int32.ofNat raw))

/-- Flag bits, language tag and list index. -/
def decodeTail : Dec (Bool × Option String × Option Int32) := do
  let flags ← readU8
  let lang ← whenFlag flags OP_FLAG_HAS_LANG none (do
    let s ← decodeInlineStr build
    pure (some s))
  let i ← whenFlag flags OP_FLAG_HAS_I none (decodeIndex build)
  pure (flags &&& OP_FLAG_ASSERT != 0, lang, i)

/-- Namespace code, not checked against its width, and name. -/
def decodeRawSid : Dec (UInt16 × String) := do
  let nsCode ← decodeU16 build
  let id ← decodeId build
  let name ← getName dict id
  pure (nsCode, name)

def getGraphName (id : ℕ) : Dec String := if id = 0 then pure "" else getName dict id

def decodeRawOp (dicts : ReadDicts) : Dec RawOp := do
  let gNsCode ← decodeU16 build
  let gNameId ← decodeId build
  let gName ← getGraphName dicts.graph gNameId
  let (sNsCode, sName) ← decodeRawSid build dicts.subject
  let (pNsCode, pName) ← decodeRawSid build dicts.predicate
  let (dtNsCode, dtName) ← decodeRawSid build dicts.datatype
  let tag ← decodeTag
  let o ← decodeRawObject build dicts tag
  let (op, lang, i) ← decodeTail build
  pure { gNsCode, gName, sNsCode, sName, pNsCode, pName, dtNsCode, dtName, o, op, lang, i }

/-! ## Reading flakes -/

/-- `FlakeValue::try_from`. -/
def FlakeValue.tryFrom (x : External) : RawObject → Except String (FlakeValue x)
  | .ref nsCode name => .ok (.ref ⟨nsCode, name⟩)
  | .long n => .ok (.long n)
  | .double d => .ok (.double d)
  | .str s => .ok (.string s)
  | .boolean b => .ok (.boolean b)
  | .null => .ok .null
  | .jsonStr s => .ok (.json s)
  | .lexicalStr kind s =>
    match x.parse kind s with
    | .ok v => .ok (.lexical kind v)
    | .error e => .error ("bad " ++ kind.label ++ ": " ++ e)
  | .geoPoint lat lng =>
    match encodeGeoPoint lat lng with
    | some bits => .ok (.geoPoint bits)
    | none => .error "bad geo point"
  | .vector elements => .ok (.vector elements)

/-- The slice of the last six bytes in `is_strict_time_lexical` starts inside a character. -/
def cutsChar (s : String) : Bool :=
  let size (chars : List Char) : ℕ := (chars.map Char.utf8Size).sum
  s.toList.getLast? != some 'Z' && decide (6 ≤ size s.toList) && s.toList.tails.all (size · != 6)

/-- The parser of a lexical form panics. -/
def RawObject.panics (x : External) (build : Build) : RawObject → Bool
  | .lexicalStr .time s => cutsChar s
  | .lexicalStr kind s => build.checks && x.overflows kind s
  | _ => false

def decodeNsCode : Dec UInt16 := do
  let raw ← decodeVarint build
  ensure (raw < 2 ^ 16) (.invalidOp s!"namespace code {raw} exceeds u16::MAX")
  pure (UInt16.ofNat raw)

def decodeSid : Dec Sid := do
  let nsCode ← decodeNsCode build
  let id ← decodeId build
  let name ← getName dict id
  pure ⟨nsCode, name⟩

def decodeGraph : Dec (Option Sid) := do
  let nsCode ← decodeNsCode build
  let id ← decodeId build
  if nsCode = 0 ∧ id = 0 then pure none
  else do
    ensure (id != 0)
      (.invalidOp "graph name_id 0 is reserved (use (0,0) for default graph)")
    let name ← getName dict id
    pure (some ⟨nsCode, name⟩)

def decodeObject (x : External) (build : Build) (dicts : ReadDicts) (tag : OTag) :
    Dec (FlakeValue x) := do
  let raw ← decodeRawObject build dicts tag
  if raw.panics x build then liftExcept (.error .panic)
  else match FlakeValue.tryFrom x raw with
    | .ok v => pure v
    | .error e => fail (.invalidOp ("Invalid commit: " ++ e))

/-- A tag without an index is normalized, one with an index is not. -/
def metaOf : Option String → Option Int32 → Option FlakeMeta
  | some l, some i => some ⟨some l, some i⟩
  | some l, none => some (FlakeMeta.withLang l)
  | none, some i => some (FlakeMeta.withIndex i)
  | none, none => none

def decodeOp (x : External) (build : Build) (dicts : ReadDicts) (t : ℤ) : Dec (Flake x) := do
  let g ← decodeGraph build dicts.graph
  let s ← decodeSid build dicts.subject
  let p ← decodeSid build dicts.predicate
  let dt ← decodeSid build dicts.datatype
  let tag ← decodeTag
  let o ← decodeObject x build dicts tag
  let (op, lang, i) ← decodeTail build
  pure { g, s, p, o, dt, t, op, m := metaOf lang i }

end Fluree.Codec

import Fluree.Commit.Wire
import Fluree.Lib.Guard

/-!
# Namespace codes

A subject id is a namespace code and a name. Codes below `USER_START` are fixed; names under
`EMPTY` and `OVERFLOW` are full IRIs.
-/

namespace Fluree

open Lib

namespace Namespaces

def EMPTY : UInt16 := 0

def JSON_LD : UInt16 := 1

def XSD : UInt16 := 2

def RDF : UInt16 := 3

def RDFS : UInt16 := 4

def SHACL : UInt16 := 5

def OWL : UInt16 := 6

def FLUREE_DB : UInt16 := 7

def DID_KEY : UInt16 := 8

def FLUREE_COMMIT : UInt16 := 9

def BLANK_NODE : UInt16 := 10

def OGC_GEO : UInt16 := 11

def FLUREE_URN : UInt16 := 12

def USER_START : UInt16 := 13

def OVERFLOW : UInt16 := 0xFFFE

def isFullIri (nsCode : UInt16) : Bool := nsCode == EMPTY || nsCode == OVERFLOW

end Namespaces

/-- Codes to text. -/
abbrev NamespaceTable := KeyedMap UInt16 String

open Namespaces in
/-- The fixed codes in the order they are entered. -/
def builtinNamespaces : List (UInt16 × String) :=
  [(EMPTY, ""), (JSON_LD, "@"), (XSD, "http://www.w3.org/2001/XMLSchema#"),
   (RDF, "http://www.w3.org/1999/02/22-rdf-syntax-ns#"),
   (RDFS, "http://www.w3.org/2000/01/rdf-schema#"),
   (SHACL, "http://www.w3.org/ns/shacl#"),
   (OWL, "http://www.w3.org/2002/07/owl#"),
   (FLUREE_DB, "https://ns.flur.ee/db#"),
   (DID_KEY, "did:key:"),
   (FLUREE_COMMIT, "fluree:commit:sha256:"),
   (BLANK_NODE, "_:"),
   (OGC_GEO, "http://www.opengis.net/ont/geosparql#"),
   (FLUREE_URN, "urn:fluree:")]

def defaultNamespaceCodes : NamespaceTable :=
  builtinNamespaces.foldl (fun m e => m.insert e.1 e.2) ∅

/-!
## Encoding IRIs

An IRI is cut into the text of a namespace and a name, by the ledger's split mode alone, and is
then stored as the code of the namespace and the name. `NamespaceCodes` is the two-way table of a
writer, `LedgerSnapshot` and `BinaryIndexStore` hold the tables that readers use.
-/

open Namespaces

/-! ## Splitting -/

/-- The offset just past `://`. -/
def findAuthorityStart : List Char → Option ℕ
  | [] => none
  | c :: rest =>
    if c = ':' ∧ rest.take 2 = ['/', '/'] then some 3
    else (findAuthorityStart rest).map (· + 1)

variable (iri : List Char)

/-- The first `?` that comes before any `#`. -/
def queryCut : Option ℕ :=
  match iri.idxOf? '?', iri.idxOf? '#' with
  | some q, some h => if q < h then some q else none
  | some q, none => some q
  | none, _ => none

def noQueryEnd : ℕ := (queryCut iri).getD iri.length

def pastLast (p : Char → Bool) (l : List Char) : ℕ := (l.reverse.findIdx? p).elim 0 (l.length - ·)

/-- How far up to `n` non-empty path segments reach, with the slash after each of them. Empty
segments are passed over and not counted. -/
def extendByNSegments : ℕ → List Char → ℕ
  | 0, _ => 0
  | n + 1, path =>
    let slashes := (path.takeWhile (· == '/')).length
    let rest := path.drop slashes
    if rest = [] then slashes
    else
      let segment := (rest.takeWhile (· != '/')).length
      if (rest.drop segment).head? = some '/' then
        slashes + segment + 1 + extendByNSegments n (rest.drop (segment + 1))
      else slashes + segment

variable (mode : NsSplitMode)

def splitHierarchical (authorityStart : ℕ) : ℕ :=
  let noQueryEnd := noQueryEnd iri
  match mode with
  | .mostGranular => pastLast (fun c => c == '/' || c == '#') (iri.take noQueryEnd)
  | .hostPlusN n =>
    let authority := ((iri.take noQueryEnd).drop authorityStart).takeWhile (· != '/')
    let hostEnd := authorityStart + authority.length
    let hostRootEnd :=
      if hostEnd < noQueryEnd ∧ iri[hostEnd]? = some '/' then hostEnd + 1 else hostEnd
    let headEnd := ((iri.take noQueryEnd).idxOf? '#').getD noQueryEnd
    if headEnd ≤ hostRootEnd ∨ iri[hostRootEnd - 1]? ≠ some '/' then hostRootEnd
    else hostRootEnd + extendByNSegments n.toNat ((iri.take headEnd).drop hostRootEnd)

/-- The end of the last of `take` colon-delimited segments. -/
def lastSegmentEnd : ℕ → List Char → ℕ
  | 0, _ => 0
  | take + 1, rest =>
    let segEnd := (rest.takeWhile (· != ':')).length
    if rest.length ≤ segEnd ∨ take = 0 then segEnd
    else segEnd + 1 + lastSegmentEnd take (rest.drop (segEnd + 1))

/-- Where an opaque IRI is cut; `none` is the slice of `rest` whose start lies past its end. -/
def splitOpaque : Option ℕ :=
  let noQueryEnd := noQueryEnd iri
  match iri.idxOf? ':' with
  | none => some 0
  | some schemeEnd =>
    match mode with
    | .mostGranular => some (pastLast (fun c => c == '/' || c == '#' || c == ':') (iri.take noQueryEnd))
    | .hostPlusN n =>
      let restStart := schemeEnd + 1
      if noQueryEnd < restStart then none
      else
        let rest := (iri.take noQueryEnd).drop restStart
        let absSegEnd := restStart + lastSegmentEnd (1 + n.toNat) rest
        some (if absSegEnd < noQueryEnd ∧ iri[absSegEnd]? = some ':' then absSegEnd + 1 else absSegEnd)

/-- The length of the longest fixed text that an IRI starts with (the trie of the defaults). -/
def longestBuiltin : Option ℕ :=
  ((builtinNamespaces.map (·.2.toList)).filter fun p => p ≠ [] ∧ p.isPrefixOf iri).map List.length
    |>.max?

/-- The cut of an IRI; `none` is a panic. -/
def splitPosition : Option ℕ :=
  if ['_', ':'].isPrefixOf iri then some 2
  else
    let builtin := longestBuiltin iri
    if builtin ≠ none ∧ (iri.head? = some '@' ∨ mode ≠ .mostGranular) then builtin
    else
      match findAuthorityStart iri with
      | some authorityStart => some (splitHierarchical iri mode authorityStart)
      | none => splitOpaque iri mode

/-- The text of the namespace and the name. -/
def canonicalSplit (iri : String) (mode : NsSplitMode) : Option (String × String) :=
  (splitPosition iri.toList mode).map fun k =>
    (String.ofList (iri.toList.take k), String.ofList (iri.toList.drop k))

/-! ## Tables -/

/-- A code and a text cannot both stand for something else. -/
inductive NsAllocError where
  | overflow
  | codeConflict (code : UInt16) (newPrefix existingPrefix : String)
  | prefixConflict (text : String) (newCode existingCode : UInt16)

/-- Both directions of a namespace table. -/
structure NsTables where
  codes : KeyedMap UInt16 String
  reverse : KeyedMap String UInt16

namespace NsTables

def empty : NsTables := ⟨∅, ∅⟩

def insert (t : NsTables) (code : UInt16) (text : String) : NsTables :=
  ⟨t.codes.insert code text, t.reverse.insert text code⟩

end NsTables

/-- Whether an entry is new to a table that is read through `textOf` and `codeOf`, or the conflict. -/
def checkEntry (textOf : UInt16 → Option String) (codeOf : String → Option UInt16)
    (code : UInt16) (text : String) : Except NsAllocError Bool :=
  match textOf code with
  | some existing => if existing = text then .ok false else .error (.codeConflict code text existing)
  | none =>
    match codeOf text with
    | some existing => if existing = code then .ok false else .error (.prefixConflict text code existing)
    | none => .ok true

/-! ## Writers -/

/-- The table of a writer: a shared base that is never written, what was added to it, the next free
code, and what was added since the last commit. -/
structure NamespaceCodes where
  base : Option NsTables
  own : NsTables
  nextCode : UInt16
  delta : KeyedMap UInt16 String

namespace NamespaceCodes

variable (c : NamespaceCodes)

def getCode (text : String) : Option UInt16 :=
  (c.own.reverse.lookup text).or (c.base.bind (·.reverse.lookup text))

def getPrefix (code : UInt16) : Option String :=
  (c.own.codes.lookup code).or (c.base.bind (·.codes.lookup code))

/-- The code after the largest one below `OVERFLOW`, and not a fixed one. -/
def nextAfter (codes : KeyedMap UInt16 String) : UInt16 :=
  max (((codes.keys.filter (· < OVERFLOW)).max?.getD 0) + 1) USER_START

def allocatePrefix (text : String) : Except NsAllocError (UInt16 × NamespaceCodes) :=
  match c.getCode text with
  | some code => .ok (code, c)
  | none =>
    if OVERFLOW ≤ c.nextCode then .error .overflow
    else
      let code := c.nextCode
      .ok (code, { c with nextCode := code + 1, own := c.own.insert code text,
                          delta := c.delta.insert code text })

def mergeEntry (code : UInt16) (text : String) :
    Except NsAllocError NamespaceCodes := do
  let new ← checkEntry c.getPrefix c.getCode code text
  if new then
    .ok { c with own := c.own.insert code text,
                 nextCode := if c.nextCode ≤ code ∧ code < OVERFLOW then code + 1 else c.nextCode }
  else .ok c

def mergeDelta (delta : List (UInt16 × String)) :
    Except NsAllocError NamespaceCodes :=
  delta.foldlM (fun c e => c.mergeEntry e.1 e.2) c

/-- Over a snapshot's tables, with the fixed codes on top where the snapshot lacks them. -/
def layeredOver (tables : NsTables) : Except NsAllocError NamespaceCodes :=
  mergeDelta ⟨some tables, .empty, nextAfter tables.codes, ∅⟩ builtinNamespaces

def takeDelta : KeyedMap UInt16 String × NamespaceCodes := (c.delta, { c with delta := ∅ })

end NamespaceCodes

/-! ## Readers -/

def NsSplitMode.debug : NsSplitMode → String
  | .mostGranular => "MostGranular"
  | .hostPlusN n => s!"HostPlusN({n})"

/-- The part of a snapshot that encodes and decodes IRIs. -/
structure LedgerSnapshot where
  tables : NsTables
  nsSplitMode : NsSplitMode

/-- Exact look-up of the text; an unknown one falls back to the full IRI under `EMPTY`. -/
def encodeWith (tables : NsTables) (mode : NsSplitMode) (iri : String) : Option Sid :=
  (canonicalSplit iri mode).map fun (text, name) =>
    match tables.reverse.lookup text with
    | some code => ⟨code, name⟩
    | none => ⟨EMPTY, iri⟩

/-- `none` is an unknown code. -/
def decodeWith (tables : NsTables) (sid : Sid) : Option String :=
  if isFullIri sid.namespaceCode then some sid.name
  else (tables.codes.lookup sid.namespaceCode).map (· ++ sid.name)

namespace LedgerSnapshot

variable (s : LedgerSnapshot)

def encodeIri (iri : String) : Option Sid := encodeWith s.tables s.nsSplitMode iri

def decodeSid (sid : Sid) : Option String := decodeWith s.tables sid

/-- One entry of a commit's delta. -/
def applyEntry (code : UInt16) (text : String) :
    Except NsAllocError LedgerSnapshot := do
  let new ← checkEntry s.tables.codes.lookup s.tables.reverse.lookup code text
  if new then .ok { s with tables := s.tables.insert code text } else .ok s

/-- The namespaces of `apply_envelope_deltas`. -/
def applyNamespaceDelta (delta : List (UInt16 × String)) :
    Except NsAllocError LedgerSnapshot :=
  delta.foldlM (fun s e => s.applyEntry e.1 e.2) s

def hasUserNamespaceCodes : Bool :=
  s.tables.codes.keys.any fun code => decide (USER_START ≤ code) && decide (code < OVERFLOW)

/-- The mode is fixed once a code of users is taken. The error is the text of an invalid index. -/
def setNsSplitMode (mode : NsSplitMode) (commitT : ℤ) :
    Except String LedgerSnapshot :=
  if s.hasUserNamespaceCodes && decide (s.nsSplitMode ≠ mode) then
    let new := mode.debug
    let old := s.nsSplitMode.debug
    .error s!"ns_split_mode conflict: commit t={commitT} declares {new} but ledger already has user namespaces under {old}"
  else .ok { s with nsSplitMode := mode }

end LedgerSnapshot

/-- The part of a loaded index that encodes and decodes IRIs. -/
structure BinaryIndexStore where
  tables : NsTables
  nsSplitMode : NsSplitMode

namespace BinaryIndexStore

variable (s : BinaryIndexStore)

def encodeIri (iri : String) : Option Sid := encodeWith s.tables s.nsSplitMode iri

def sidToIri (sid : Sid) : Option String := decodeWith s.tables sid

/-- The entries are checked against the tables before any of them is entered. -/
def augmentNamespaceCodes (codes : List (UInt16 × String)) :
    Except NsAllocError BinaryIndexStore := do
  let new ← codes.filterM fun e => checkEntry s.tables.codes.lookup s.tables.reverse.lookup e.1 e.2
  .ok { s with tables := new.foldl (fun t e => t.insert e.1 e.2) s.tables }

end BinaryIndexStore

end Fluree

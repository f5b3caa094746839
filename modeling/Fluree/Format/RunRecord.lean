import Fluree.Lib.Reader
import Fluree.Lib.Slices

/-!
# Run records, sort orders and ordered keys

The record of the columnar index format: the fact identity `FactKeyV3`, the four sort
orders, the record comparators, and the 26-byte big-endian ordered keys that leaves and
branches use for routing.

`sortKey order k` is the number an ordered key denotes. It is the one notion of position
used in the rest of the development.
-/

namespace Fluree

open Lib

section

inductive RunSortOrder where
  | spot
  | psot
  | post
  | opst

/-- Fact identity: two facts with the same key are the same fact and differ only in `t`. -/
@[ext] structure FactKeyV3 where
  sId : UInt64
  pId : UInt32
  oType : UInt16
  oKey : UInt64
  oI : UInt32
  deriving DecidableEq

def LIST_INDEX_NONE : UInt32 := 4294967295

@[ext] structure RunRecordV2 where
  sId : UInt64
  oKey : UInt64
  pId : UInt32
  t : UInt32
  oI : UInt32
  oType : UInt16
  gId : UInt16
  deriving DecidableEq

def RunRecordV2.factKey (r : RunRecordV2) : FactKeyV3 := ⟨r.sId, r.pId, r.oType, r.oKey, r.oI⟩

/-! ## Comparators -/

/-- The sort-key columns of each order, compared one after the other; no `t` and no `op`. -/
def cmpKey : RunSortOrder → FactKeyV3 → FactKeyV3 → Ordering
  | .spot, a, b =>
    ((((compare a.sId b.sId).then (compare a.pId b.pId)).then (compare a.oType b.oType)).then
      (compare a.oKey b.oKey)).then (compare a.oI b.oI)
  | .psot, a, b =>
    ((((compare a.pId b.pId).then (compare a.sId b.sId)).then (compare a.oType b.oType)).then
      (compare a.oKey b.oKey)).then (compare a.oI b.oI)
  | .post, a, b =>
    ((((compare a.pId b.pId).then (compare a.oType b.oType)).then (compare a.oKey b.oKey)).then
      (compare a.oI b.oI)).then (compare a.sId b.sId)
  | .opst, a, b =>
    ((((compare a.oType b.oType).then (compare a.oKey b.oKey)).then (compare a.oI b.oI)).then
      (compare a.pId b.pId)).then (compare a.sId b.sId)

def cmpV2ForOrder (order : RunSortOrder) (a b : RunRecordV2) : Ordering :=
  cmpKey order a.factKey b.factKey

def sameIdentityV2 (a b : RunRecordV2) : Bool :=
  a.sId == b.sId && a.pId == b.pId && a.oType == b.oType && a.oKey == b.oKey && a.oI == b.oI

@[simp] lemma sameIdentityV2_iff : sameIdentityV2 a b = true ↔ a.factKey = b.factKey := by
  simp [sameIdentityV2, RunRecordV2.factKey, and_assoc]

/-! ## Ordered keys -/

/-- A 26-byte routing key. -/
def OrderedKey : Type := { bs : List UInt8 // bs.length = 26 }

instance : DecidableEq OrderedKey := inferInstanceAs (DecidableEq { bs : List UInt8 // bs.length = 26 })

/-- The identity columns in sort order, each big-endian. -/
def orderedKeyBytes : RunSortOrder → FactKeyV3 → List UInt8
  | .spot, k => beBytes 8 k.sId.toNat ++ beBytes 4 k.pId.toNat ++ beBytes 2 k.oType.toNat ++
      beBytes 8 k.oKey.toNat ++ beBytes 4 k.oI.toNat
  | .psot, k => beBytes 4 k.pId.toNat ++ beBytes 8 k.sId.toNat ++ beBytes 2 k.oType.toNat ++
      beBytes 8 k.oKey.toNat ++ beBytes 4 k.oI.toNat
  | .post, k => beBytes 4 k.pId.toNat ++ beBytes 2 k.oType.toNat ++ beBytes 8 k.oKey.toNat ++
      beBytes 4 k.oI.toNat ++ beBytes 8 k.sId.toNat
  | .opst, k => beBytes 2 k.oType.toNat ++ beBytes 8 k.oKey.toNat ++ beBytes 4 k.oI.toNat ++
      beBytes 4 k.pId.toNat ++ beBytes 8 k.sId.toNat

variable (order : RunSortOrder)

lemma orderedKeyBytes_length (k : FactKeyV3) : (orderedKeyBytes order k).length = 26 := by
  cases order <;> simp [orderedKeyBytes]

def writeOrderedKeyV2 (order : RunSortOrder) (r : RunRecordV2) : OrderedKey :=
  ⟨orderedKeyBytes order r.factKey, orderedKeyBytes_length order r.factKey⟩

def OrderedKey.field (k : OrderedKey) (i j : ℕ) : ℕ := beNat ((k.val.take j).drop i)

/-- A key read back as a record; the columns a key does not hold are zero. -/
def readOrderedKeyV2 : RunSortOrder → OrderedKey → RunRecordV2
  | .spot, k =>
    { sId := .ofNat (k.field 0 8), pId := .ofNat (k.field 8 12), oType := .ofNat (k.field 12 14),
      oKey := .ofNat (k.field 14 22), oI := .ofNat (k.field 22 26), t := 0, gId := 0 }
  | .psot, k =>
    { pId := .ofNat (k.field 0 4), sId := .ofNat (k.field 4 12), oType := .ofNat (k.field 12 14),
      oKey := .ofNat (k.field 14 22), oI := .ofNat (k.field 22 26), t := 0, gId := 0 }
  | .post, k =>
    { pId := .ofNat (k.field 0 4), oType := .ofNat (k.field 4 6), oKey := .ofNat (k.field 6 14),
      oI := .ofNat (k.field 14 18), sId := .ofNat (k.field 18 26), t := 0, gId := 0 }
  | .opst, k =>
    { oType := .ofNat (k.field 0 2), oKey := .ofNat (k.field 2 10), oI := .ofNat (k.field 10 14),
      pId := .ofNat (k.field 14 18), sId := .ofNat (k.field 18 26), t := 0, gId := 0 }

def cmpOrderedKeyV2 (a b : OrderedKey) : Ordering := memcmp a.val b.val

/-! ## The position of a key -/

def sortKey (order : RunSortOrder) (k : FactKeyV3) : ℕ := beNat (orderedKeyBytes order k)

def RunRecordV2.pos (order : RunSortOrder) (r : RunRecordV2) : ℕ := sortKey order r.factKey

lemma compare_u64 (a b : UInt64) : compare a b = compare a.toNat b.toNat := by
  simp [compare, compareOfLessAndEq, UInt64.lt_iff_toNat_lt, ← UInt64.toNat_inj]

lemma compare_u32 (a b : UInt32) : compare a b = compare a.toNat b.toNat := by
  simp [compare, compareOfLessAndEq, UInt32.lt_iff_toNat_lt, ← UInt32.toNat_inj]

lemma compare_u16 (a b : UInt16) : compare a b = compare a.toNat b.toNat := by
  simp [compare, compareOfLessAndEq, UInt16.lt_iff_toNat_lt, ← UInt16.toNat_inj]

lemma compare_u8 (a b : UInt8) : compare a b = compare a.toNat b.toNat := by
  simp [compare, compareOfLessAndEq, UInt8.lt_iff_toNat_lt, ← UInt8.toNat_inj]

lemma then_assoc (a b c : Ordering) : (a.then b).then c = a.then (b.then c) := by cases a <;> rfl

lemma compare_bool (a b : Bool) : compare a b = compare a.toNat b.toNat := by
  cases a <;> cases b <;> rfl

lemma beNat_u64 (a : UInt64) : beNat (beBytes 8 a.toNat) = a.toNat := by
  rw [beNat_beBytes, Nat.mod_eq_of_lt]; exact a.toNat_lt

lemma beNat_u32 (a : UInt32) : beNat (beBytes 4 a.toNat) = a.toNat := by
  rw [beNat_beBytes, Nat.mod_eq_of_lt]; exact a.toNat_lt

lemma beNat_u16 (a : UInt16) : beNat (beBytes 2 a.toNat) = a.toNat := by
  rw [beNat_beBytes, Nat.mod_eq_of_lt]; exact a.toNat_lt

/-- **The comparator of each order compares sort keys.** -/
lemma cmpKey_eq_compare (a b : FactKeyV3) :
    cmpKey order a b = compare (sortKey order a) (sortKey order b) := by
  have h64 : ∀ x : UInt64, x.toNat < 256 ^ 8 := fun x => x.toNat_lt
  have h32 : ∀ x : UInt32, x.toNat < 256 ^ 4 := fun x => x.toNat_lt
  have h16 : ∀ x : UInt16, x.toNat < 256 ^ 2 := fun x => x.toNat_lt
  cases order <;>
    simp only [sortKey, cmpKey, compare_u64, compare_u32, compare_u16, orderedKeyBytes,
      beNat_append, beBytes_length, beNat_u64, beNat_u32, beNat_u16, compare_then (h64 _) (h64 _),
      compare_then (h32 _) (h32 _), compare_then (h16 _) (h16 _)]

lemma cmpV2ForOrder_eq_compare (a b : RunRecordV2) :
    cmpV2ForOrder order a b = compare (a.pos order) (b.pos order) :=
  cmpKey_eq_compare order a.factKey b.factKey

/-! ## Round trips -/

lemma eq_of_cmpKey_eq (a b : FactKeyV3) (h : cmpKey order a b = .eq) : a = b := by
  cases order <;>
  · simp only [cmpKey, Ordering.then_eq_eq, compare_u64, compare_u32, compare_u16,
      Nat.compare_eq_eq, UInt64.toNat_inj, UInt32.toNat_inj, UInt16.toNat_inj] at h
    ext1 <;> tauto

/-- **Different fact identities have different positions.** -/
lemma sortKey_injective : Function.Injective (sortKey order) := by
  intro a b h
  apply eq_of_cmpKey_eq order
  rw [cmpKey_eq_compare, h, Nat.compare_eq_eq]

lemma pos_eq_iff {a b : RunRecordV2} : a.pos order = b.pos order ↔ a.factKey = b.factKey :=
  (sortKey_injective order).eq_iff

end

/-!
## Events of the commit log and their object types

`RunRecord` is one assert or retract event as the commit resolver emits it. Its object is
tagged by `(oKind, dt, langId)`; the columnar format replaces the triple by one `OType`,
which `OTypeRegistry.resolve` computes. Two events concern the same fact when their
records under `RunRecordV2.fromV1` have the same identity.
-/

/-- Object kind discriminants. -/
abbrev ObjKind := UInt8

namespace ObjKind

def NULL : ObjKind := 0x01
def BOOL : ObjKind := 0x02
def NUM_INT : ObjKind := 0x03
def NUM_F64 : ObjKind := 0x04
def REF_ID : ObjKind := 0x05
def LEX_ID : ObjKind := 0x06
def DATE : ObjKind := 0x07
def TIME : ObjKind := 0x08
def DATE_TIME : ObjKind := 0x09
def VECTOR_ID : ObjKind := 0x0A
def JSON_ID : ObjKind := 0x0B
def NUM_BIG : ObjKind := 0x0C
def G_YEAR : ObjKind := 0x0D
def G_YEAR_MONTH : ObjKind := 0x0E
def G_MONTH : ObjKind := 0x0F
def G_DAY : ObjKind := 0x10
def G_MONTH_DAY : ObjKind := 0x11
def YEAR_MONTH_DUR : ObjKind := 0x12
def DAY_TIME_DUR : ObjKind := 0x13
def GEO_POINT : ObjKind := 0x14

end ObjKind

/-- Unified object type tag. -/
abbrev OType := UInt16

namespace OType

def RESERVED : OType := 0x0000
def NULL : OType := 0x0001
def XSD_BOOLEAN : OType := 0x0002
def XSD_INTEGER : OType := 0x0003
def XSD_LONG : OType := 0x0004
def XSD_DOUBLE : OType := 0x0010
def XSD_FLOAT : OType := 0x0011
def XSD_DECIMAL : OType := 0x0012
def XSD_DATE : OType := 0x0013
def XSD_TIME : OType := 0x0014
def XSD_DATE_TIME : OType := 0x0015
def XSD_G_YEAR : OType := 0x0016
def XSD_G_YEAR_MONTH : OType := 0x0017
def XSD_G_MONTH : OType := 0x0018
def XSD_G_DAY : OType := 0x0019
def XSD_G_MONTH_DAY : OType := 0x001A
def XSD_YEAR_MONTH_DURATION : OType := 0x001B
def XSD_DAY_TIME_DURATION : OType := 0x001C
def GEO_POINT : OType := 0x001E
def XSD_STRING : OType := 0x8000
def IRI_REF : OType := 0x8007
def RDF_JSON : OType := 0x8008
def VECTOR : OType := 0x8009
def FULLTEXT : OType := 0x800A
def NUM_BIG_OVERFLOW : OType := 0x800B
def LANG_STRING_BASE : UInt16 := 0xC000

def langString (langId : UInt16) : OType := LANG_STRING_BASE ||| langId
def customerDatatype (payload : UInt16) : OType := 0x4000 ||| payload

end OType

/-- Datatype dictionary ids; the reserved ones are below `RESERVED_COUNT`. -/
abbrev DatatypeDictId := UInt16

def DatatypeDictId.LANG_STRING : DatatypeDictId := 11

/-- The object type of each datatype dictionary id the ledger knows. -/
structure OTypeRegistry where
  dtOtypes : List OType

/-- The registry of a ledger without datatypes of its own. -/
def OTypeRegistry.builtinOnly : OTypeRegistry :=
  ⟨[.IRI_REF, .XSD_STRING, .XSD_BOOLEAN, .XSD_INTEGER, .XSD_LONG, .XSD_DECIMAL, .XSD_DOUBLE,
    .XSD_FLOAT, .XSD_DATE_TIME, .XSD_DATE, .XSD_TIME, .RESERVED, .RDF_JSON, .VECTOR, .FULLTEXT]⟩

variable (reg : OTypeRegistry)

def OTypeRegistry.resolveByDt (dt : DatatypeDictId) : OType :=
  match reg.dtOtypes[dt.toNat]? with
  | some o => o
  | none => .customerDatatype dt

/-- The object type of a `(kind, datatype, language)` triple. For most kinds the kind decides;
integers, floats and dictionary strings take the type of their datatype. -/
def OTypeRegistry.resolve (oKind : ObjKind) (dt : DatatypeDictId)
    (langId : UInt16) : OType :=
  if oKind = .NULL then .NULL
  else if oKind = .BOOL then .XSD_BOOLEAN
  else if oKind = .DATE then .XSD_DATE
  else if oKind = .TIME then .XSD_TIME
  else if oKind = .DATE_TIME then .XSD_DATE_TIME
  else if oKind = .VECTOR_ID then .VECTOR
  else if oKind = .JSON_ID then .RDF_JSON
  else if oKind = .NUM_BIG then .NUM_BIG_OVERFLOW
  else if oKind = .G_YEAR then .XSD_G_YEAR
  else if oKind = .G_YEAR_MONTH then .XSD_G_YEAR_MONTH
  else if oKind = .G_MONTH then .XSD_G_MONTH
  else if oKind = .G_DAY then .XSD_G_DAY
  else if oKind = .G_MONTH_DAY then .XSD_G_MONTH_DAY
  else if oKind = .YEAR_MONTH_DUR then .XSD_YEAR_MONTH_DURATION
  else if oKind = .DAY_TIME_DUR then .XSD_DAY_TIME_DURATION
  else if oKind = .GEO_POINT then .GEO_POINT
  else if oKind = .REF_ID then .IRI_REF
  else if oKind = .NUM_INT then reg.resolveByDt dt
  else if oKind = .NUM_F64 then reg.resolveByDt dt
  else if oKind = .LEX_ID then
    if dt = .LANG_STRING then .langString langId else reg.resolveByDt dt
  else .RESERVED

variable (r : RunRecord)

/-- One event of the commit log; `op` is `true` for an assert. -/
@[ext] structure RunRecord where
  sId : UInt64
  oKey : UInt64
  pId : UInt32
  t : UInt32
  i : UInt32
  gId : UInt16
  dt : UInt16
  langId : UInt16
  oKind : UInt8
  op : Bool
  deriving DecidableEq

def RunRecord.oType : OType := reg.resolve r.oKind r.dt r.langId

/-- SPOT order of events: `(sId, pId, oKind, oKey, dt, t, op)`. -/
def cmpSpot (a b : RunRecord) : Ordering :=
  ((((((compare a.sId b.sId).then (compare a.pId b.pId)).then (compare a.oKind b.oKind)).then
    (compare a.oKey b.oKey)).then (compare a.dt b.dt)).then (compare a.t b.t)).then
    (compare a.op b.op)

def cmpGraphSpot (a b : RunRecord) : Ordering := (compare a.gId b.gId).then (cmpSpot a b)

def RunRecordV2.fromV1 (v1 : RunRecord) : RunRecordV2 :=
  { sId := v1.sId, oKey := v1.oKey, pId := v1.pId, t := v1.t, oI := v1.i,
    oType := v1.oType reg, gId := v1.gId }

def RunRecord.factKey : FactKeyV3 := (RunRecordV2.fromV1 reg r).factKey

/-- The part of the event order that groups events of one value: graph, subject, predicate,
object kind and object key. -/
structure SortPart where
  gId : UInt16
  sId : UInt64
  pId : UInt32
  oKind : UInt8
  oKey : UInt64
  deriving DecidableEq

def RunRecord.sortPart : SortPart := ⟨r.gId, r.sId, r.pId, r.oKind, r.oKey⟩

/-- The position of a value in the event order. -/
def SortPart.pos (k : SortPart) : ℕ :=
  (((k.gId.toNat * 2 ^ 64 + k.sId.toNat) * 2 ^ 32 + k.pId.toNat) * 2 ^ 8 + k.oKind.toNat) * 2 ^ 64 +
    k.oKey.toNat

/-- The position of an event: its value first, then datatype, time and operation. -/
def RunRecord.eventPos : ℕ :=
  ((r.sortPart.pos * 2 ^ 16 + r.dt.toNat) * 2 ^ 32 + r.t.toNat) * 2 + r.op.toNat

lemma cmpGraphSpot_eq_compare (a b : RunRecord) :
    cmpGraphSpot a b = compare a.eventPos b.eventPos := by
  simp only [cmpGraphSpot, cmpSpot, ← then_assoc, compare_u64, compare_u32, compare_u16, compare_u8,
    compare_bool]
  rw [compare_then a.sId.toNat_lt b.sId.toNat_lt, compare_then a.pId.toNat_lt b.pId.toNat_lt,
    compare_then a.oKind.toNat_lt b.oKind.toNat_lt, compare_then a.oKey.toNat_lt b.oKey.toNat_lt,
    compare_then a.dt.toNat_lt b.dt.toNat_lt, compare_then a.t.toNat_lt b.t.toNat_lt,
    compare_then a.op.toNat_lt b.op.toNat_lt]
  rfl

lemma SortPart.pos_injective : Function.Injective SortPart.pos := by
  intro a b h
  have h1 := a.oKey.toNat_lt
  have h2 := b.oKey.toNat_lt
  have h3 := a.oKind.toNat_lt
  have h4 := b.oKind.toNat_lt
  have h5 := a.pId.toNat_lt
  have h6 := b.pId.toNat_lt
  have h7 := a.sId.toNat_lt
  have h8 := b.sId.toNat_lt
  simp only [SortPart.pos] at h
  cases a; cases b
  simp only [SortPart.mk.injEq, ← UInt64.toNat_inj, ← UInt32.toNat_inj, ← UInt16.toNat_inj,
    ← UInt8.toNat_inj] at *
  refine ⟨?_, ?_, ?_, ?_, ?_⟩ <;> omega

lemma asc_sortPart {l : List RunRecord} (h : Asc RunRecord.eventPos l) :
    Asc (fun r => r.sortPart.pos) l := by
  refine h.imp fun {a b} hab => ?_
  have h1 := a.dt.toNat_lt
  have h2 := b.dt.toNat_lt
  have h3 := a.t.toNat_lt
  have h4 := b.t.toNat_lt
  have h5 := a.op.toNat_lt
  have h6 := b.op.toNat_lt
  simp only [RunRecord.eventPos] at hab
  show a.sortPart.pos ≤ b.sortPart.pos
  omega

end Fluree

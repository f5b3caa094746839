import Fluree.Lib.Guard
import Fluree.Read.Column

/-!
# Leaflets

A leaflet holds sorted records of one graph and order as column blocks. Its directory data
routes and prunes: the keys of its first and last record, the predicate all of its rows share
in the orders that are segmented by predicate, and the object type all of its rows share.

Compression is left out: a column block is the list of its values. Loading is done by column:
a constant of the directory replaces the block that was not written.
-/

namespace Fluree

/-- How a call fails: with an error, or by a panic. -/
inductive Fault where
  | error (e : StoreError)
  | panicked

/-- A panic where the source unwraps a missing value. -/
def orPanic {α : Type} : Option α → Except Fault α
  | some a => .ok a
  | none => .error .panicked

/-- An error passed on to the caller. -/
def orError {α : Type} : Except StoreError α → Except Fault α
  | .ok a => .ok a
  | .error e => .error (.error e)

/-! ## Segments -/

/-- What the rows of a leaflet have in common in a given order. -/
inductive SegmentKey where
  | predicate (pId : UInt32)
  | oType (oType : UInt16)
  | unsegmented
  deriving DecidableEq

variable (order : RunSortOrder)

def SegmentKey.of (pId : UInt32) (oType : UInt16) : SegmentKey :=
  match order with
  | .post | .psot => .predicate pId
  | .opst => .oType oType
  | .spot => .unsegmented

def FactKeyV3.segment (k : FactKeyV3) : SegmentKey := SegmentKey.of order k.pId k.oType

/-! ## Encoding -/

def HAS_O_I : UInt32 := 1

def HAS_O_TYPE_COL : UInt32 := 2

structure ColumnBlocks where
  sId : Option (List UInt64)
  pId : Option (List UInt32)
  oType : Option (List UInt16)
  oKey : Option (List UInt64)
  oI : Option (List UInt32)
  t : Option (List UInt32)

def ColumnBlocks.none : ColumnBlocks := ⟨.none, .none, .none, .none, .none, .none⟩

structure EncodedLeaflet where
  rowCount : ℕ
  leadGroupCount : ℕ
  firstKey : OrderedKey
  lastKey : OrderedKey
  pConst : Option UInt32
  oTypeConst : Option UInt16
  flags : UInt32
  columns : ColumnBlocks

/-- Starts a new group of equal leading values: the object in POST and OPST, the subject in
PSOT and SPOT. -/
def startsLeadGroup (prev rec : RunRecordV2) : Bool :=
  match order with
  | .post | .opst => rec.oType != prev.oType || rec.oKey != prev.oKey
  | .psot | .spot => rec.sId != prev.sId

/-- The number of distinct leading values of sorted records. -/
def computeLeadGroupCount (order : RunSortOrder) : List RunRecordV2 → ℕ
  | [] => 0
  | [_] => 1
  | prev :: rec :: rest =>
    computeLeadGroupCount order (rec :: rest) + if startsLeadGroup order prev rec then 1 else 0

/-- The predicate of a leaflet in the orders segmented by predicate. -/
def leafletPConst (first : RunRecordV2) : Option UInt32 :=
  match order with
  | .post | .psot => some first.pId
  | .opst | .spot => none

/-- The object type of a leaflet: known from the segment in OPST, never looked for in SPOT. -/
def leafletOTypeConst (first : RunRecordV2) (records : List RunRecordV2) :
    Option UInt16 :=
  match order with
  | .opst => some first.oType
  | .post | .psot =>
    if records.all (fun r => r.oType == first.oType) then some first.oType else none
  | .spot => none

def encodeLeaflet (records : List RunRecordV2) :
    Except StoreError EncodedLeaflet :=
  match records with
  | [] => .error ⟨.invalidInput, "cannot encode empty leaflet"⟩
  | first :: rest =>
    let oTypeConst := leafletOTypeConst order first records
    let hasOI := records.any (fun r => r.oI != LIST_INDEX_NONE)
    .ok { rowCount := records.length,
          leadGroupCount := computeLeadGroupCount order records,
          firstKey := writeOrderedKeyV2 order first,
          lastKey := writeOrderedKeyV2 order (rest.getLastD first),
          pConst := leafletPConst order first,
          oTypeConst,
          flags := (if hasOI then HAS_O_I else 0) |||
            (if oTypeConst.isNone then HAS_O_TYPE_COL else 0),
          columns :=
            { sId := some (records.map (·.sId)),
              pId := match order with
                | .spot | .opst => some (records.map (·.pId))
                | .post | .psot => none
              oType := if oTypeConst.isNone then some (records.map (·.oType)) else none,
              oKey := some (records.map (·.oKey)),
              oI := if hasOI then some (records.map (·.oI)) else none,
              t := some (records.map (·.t)) } }

/-! ## Loading -/

structure ColumnSet where
  sId : Bool
  pId : Bool
  oType : Bool
  oKey : Bool
  oI : Bool
  t : Bool

namespace ColumnSet

def ALL : ColumnSet := ⟨true, true, true, true, true, true⟩

end ColumnSet

/-- One decoded column block, checked against the row count. -/
def decodeColumn {α : Type} (name : String) (rowCount : ℕ) :
    Option (List α) → Except StoreError (List α)
  | none => .error ⟨.invalidData, s!"missing column block for {name}"⟩
  | some vs =>
    if vs.length = rowCount then .ok vs
    else .error ⟨.invalidData,
      s!"{name} column: decoded {vs.length} values but leaflet has {rowCount} rows"⟩

def loadBlock {α : Type} (name : String) (rowCount : ℕ) (wanted : Bool) (block : Option (List α)) :
    Except StoreError (ColumnData α) :=
  if wanted then .block <$> decodeColumn name rowCount block else .ok .absentDefault

variable (entry : EncodedLeaflet)

def loadPId (wanted : Bool) : Except StoreError (ColumnData UInt32) :=
  if wanted then
    match entry.pConst with
    | some p => .ok (.const p)
    | none => .block <$> decodeColumn "PId" entry.rowCount entry.columns.pId
  else .ok .absentDefault

def loadOType (wanted : Bool) : Except StoreError (ColumnData UInt16) :=
  if wanted then
    match entry.oTypeConst with
    | some ot => .ok (.const ot)
    | none =>
      if entry.flags &&& HAS_O_TYPE_COL != 0 then
        .block <$> decodeColumn "OType" entry.rowCount entry.columns.oType
      else .error ⟨.invalidData, "leaflet has neither o_type_const nor o_type column"⟩
  else .ok .absentDefault

def loadOI (wanted : Bool) : Except StoreError (ColumnData UInt32) :=
  if wanted then
    if entry.flags &&& HAS_O_I != 0 then .block <$> decodeColumn "OI" entry.rowCount entry.columns.oI
    else .ok (.const LIST_INDEX_NONE)
  else .ok .absentDefault

def loadLeafletColumns (wanted : ColumnSet) :
    Except StoreError ColumnBatch := do
  let sId ← loadBlock "SId" entry.rowCount wanted.sId entry.columns.sId
  let oKey ← loadBlock "OKey" entry.rowCount wanted.oKey entry.columns.oKey
  let pId ← loadPId entry wanted.pId
  let oType ← loadOType entry wanted.oType
  let oI ← loadOI entry wanted.oI
  let t ← loadBlock "T" entry.rowCount wanted.t entry.columns.t
  return { rowCount := entry.rowCount, sId, oKey, pId, oType, oI, t }

/-- The rows of a leaflet as the merge loads them: a leaflet without rows has no blocks. -/
def leafletBatch : Except StoreError ColumnBatch :=
  if entry.rowCount = 0 then .ok .empty else loadLeafletColumns entry .ALL

end Fluree

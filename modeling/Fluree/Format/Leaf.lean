import Fluree.Format.Leaflet

/-!
# Leaves

A leaf groups leaflets of one graph and order. It is stored as two artifacts: the leaf blob,
with a header, a directory entry for each leaflet and the column blocks, and the history
sidecar, with a segment for each leaflet. A leaf none of whose leaflets has history has no
sidecar. The byte layout of the leaf blob is left out: a blob is its decoded header and
directory.
-/

namespace Fluree

open Lib

/-- A leaflet's directory entry: its encoding, and where its history lies in the sidecar. -/
structure LeafletDirEntryV3 extends EncodedLeaflet where
  history : HistorySegmentRef

structure LeafBlob where
  order : RunSortOrder
  totalRows : ℕ
  firstKey : OrderedKey
  lastKey : OrderedKey
  entries : List LeafletDirEntryV3

/-- A leaf as a writer produces it. -/
structure LeafInfo where
  leafBytes : LeafBlob
  sidecarBytes : Option (List UInt8)
  totalRows : ℕ
  firstKey : RunRecordV2
  lastKey : RunRecordV2
  reEncodedLeafletCount : ℕ

def HistorySegmentRef.absent : HistorySegmentRef := ⟨0, 0, 0, 0⟩

/-- The directory: each leaflet with the segment reference at its index. -/
def dirEntries : List EncodedLeaflet → List HistorySegmentRef → List LeafletDirEntryV3
  | [], _ => []
  | l :: ls, refs => { l with history := refs.head?.getD .absent } :: dirEntries ls refs.tail

def buildLeafBlobRawKeys (order : RunSortOrder) (leaflets : List EncodedLeaflet)
    (historySegRefs : List HistorySegmentRef) (firstKey lastKey : OrderedKey) : LeafBlob :=
  { order, totalRows := (leaflets.map (·.rowCount)).sum, firstKey, lastKey,
    entries := dirEntries leaflets historySegRefs }

/-- The sidecar of a leaf with the segment references of its leaflets. Without any history there
is no sidecar, and the references of the empty segments are not used either. -/
def buildSidecar (σ : SortUnstable) (builder : HistSidecarBuilder) :
    Option (List UInt8) × List HistorySegmentRef :=
  if builder.hasHistory then
    let (bytes, refs) := builder.build σ
    (some bytes, refs)
  else (none, [])

/-- The history of a leaflet, from the sidecar of its leaf. -/
def loadExistingHistory (entry : LeafletDirEntryV3) (sidecarBytes : Option (List UInt8)) :
    Except StoreError (List HistEntryV2) :=
  if entry.history.len = 0 then .ok []
  else
    match sidecarBytes with
    | none =>
      let len := entry.history.len.toNat
      .error ⟨.notFound, s!"leaflet has history_len={len} but no sidecar bytes available; " ++
        "cannot preserve time-travel history"⟩
    | some bytes => decodeHistorySegment bytes entry.history

/-- The routing identity of a history entry, as a record. -/
def recordFromHistory (entry : HistEntryV2) : RunRecordV2 :=
  { sId := entry.sId, oKey := entry.oKey, pId := entry.pId, t := entry.t, oI := entry.oI,
    oType := entry.oType, gId := 0 }

end Fluree

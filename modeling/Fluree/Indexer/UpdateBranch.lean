import Fluree.Indexer.Window
import Fluree.Format.Branch
import Fluree.Lib.Tasks

/-!
# Updating a leaf

`updateLeaf` merges the novelty of one leaf's key range into the leaf. The novelty, and the
superseded events with it, are handed out to the leaflets by key; a leaflet without novelty is
passed on as it is, the others are decoded, merged and encoded again, in several chunks when the
merged rows are of several segments or too many. The leaflets are then grouped into new leaves.
-/

namespace Fluree

section

open Lib HistSidecarBuilder Ordering

structure LeafUpdateInput where
  leafBytes : LeafBlob
  /-- Novelty records of the leaf's key range with their operation, sorted by `order`. -/
  novelty : List (RunRecordV2 × Bool)
  /-- Superseded events of the leaf's key range, sorted by `order`. -/
  superseded : List (RunRecordV2 × Bool)
  order : RunSortOrder
  leafletTargetRows : ℕ
  leafTargetRows : ℕ
  sidecarBytes : Option (List UInt8)

structure LeafUpdateOutput where
  leaves : List LeafInfo
  /-- Novelty records that met an existing row. -/
  matched : List RunRecordV2

/-- One key range's portion of both streams. -/
structure StreamSlices where
  novelty : List (RunRecordV2 × Bool)
  superseded : List (RunRecordV2 × Bool)

/-- A leaflet after processing. -/
inductive EncodedLeafletInfo where
  | passthrough (dirEntry : LeafletDirEntryV3)
  | encoded (leaflet : EncodedLeaflet)

structure ProcessedLeafletV3 where
  encoded : EncodedLeafletInfo
  history : List HistEntryV2

/-! ## Slicing -/

variable (order : RunSortOrder)

/-- The part of a stream for each leaflet: up to the next leaflet's first key, the last one gets
the rest. -/
def sliceNoveltyToLeaflets (novelty : List (RunRecordV2 × Bool)) :
    List LeafletDirEntryV3 → List (List (RunRecordV2 × Bool))
  | [] => []
  | _ :: entries =>
    sliceAt (fun (e : RunRecordV2 × Bool) b =>
      cmpOrderedKeyV2 (writeOrderedKeyV2 order e.1) b == lt)
      (entries.map (fun e => e.firstKey)) novelty

def sliceStreamsToLeaflets (input : LeafUpdateInput) : List StreamSlices :=
  List.zipWith StreamSlices.mk
    (sliceNoveltyToLeaflets input.order input.novelty input.leafBytes.entries)
    (sliceNoveltyToLeaflets input.order input.superseded input.leafBytes.entries)

/-! ## Merging and encoding -/

/-- The leaflet that is left when a merge leaves no rows: key range and constants stay. -/
def emptyEncodedLeafletWithKeys (entry : EncodedLeaflet) : EncodedLeaflet :=
  { rowCount := 0, leadGroupCount := 0, firstKey := entry.firstKey, lastKey := entry.lastKey,
    pConst := entry.pConst, oTypeConst := entry.oTypeConst, flags := 0, columns := .none }

def widenLeafletKeysOverHistory (encoded : EncodedLeaflet)
    (history : List HistEntryV2) : EncodedLeaflet :=
  history.foldl (fun enc entry => let key := writeOrderedKeyV2 order (recordFromHistory entry)
    { enc with
      firstKey := if cmpOrderedKeyV2 key enc.firstKey == lt then key else enc.firstKey
      lastKey := if cmpOrderedKeyV2 key enc.lastKey == gt then key else enc.lastKey }) encoded

/-- Merged records by segment, and each segment in chunks of `targetRows`. -/
def splitBySegmentationAndSize (targetRows : ℕ) (records : List RunRecordV2) :
    List (List RunRecordV2) :=
  (runsBy (fun a b => a.factKey.segment order == b.factKey.segment order) records).flatMap
    (chunksOf targetRows)

/-- The chunk of a history entry: the first records of the later chunks are the boundaries. -/
def chunkIndex (chunks : List (List RunRecordV2)) (entry : HistEntryV2) : ℕ :=
  partitionPoint (fun b => cmpV2ForOrder order (recordFromHistory entry) b != lt)
    (chunks.tail.filterMap List.head?)

def partitionHistoryToChunks (chunks : List (List RunRecordV2))
    (history : List HistEntryV2) : List (List HistEntryV2) :=
  (List.range chunks.length).map (fun i => history.filter (fun e => chunkIndex order chunks e == i))

/-- The history of each chunk; a single chunk keeps all of it. -/
def historyOfChunks (chunks : List (List RunRecordV2))
    (history : List HistEntryV2) : List (List HistEntryV2) :=
  match chunks with
  | [_] => [history]
  | _ => partitionHistoryToChunks order chunks history

def encodeChunk (chunk : List RunRecordV2) (history : List HistEntryV2) :
    Except StoreError ProcessedLeafletV3 := do
  let encoded ← encodeLeaflet order chunk
  return ⟨.encoded (widenLeafletKeysOverHistory order encoded history), history⟩

def encodeChunks (targetRows : ℕ) (records : List RunRecordV2)
    (history : List HistEntryV2) : Except StoreError (List ProcessedLeafletV3) :=
  let chunks := splitBySegmentationAndSize order targetRows records
  (chunks.zip (historyOfChunks order chunks history)).mapM (fun p => encodeChunk order p.1 p.2)

variable (σ : SortUnstable) (input : LeafUpdateInput)

/-- Decodes a leaflet, merges its novelty and encodes the result. -/
def mergeAndEncodeLeaflet (entry : LeafletDirEntryV3)
    (slices : StreamSlices) : Except Fault (List ProcessedLeafletV3 × List RunRecordV2) := do
  let batch ← orError (leafletBatch entry.toEncodedLeaflet)
  let existingHistory ← orError (loadExistingHistory entry input.sidecarBytes)
  let merged ← orPanic (mergeNovelty σ
    { batch, existingHistory, novelty := slices.novelty, superseded := slices.superseded,
      order := input.order })
  if merged.records.isEmpty then
    return ([⟨.encoded (emptyEncodedLeafletWithKeys entry.toEncodedLeaflet), merged.history⟩],
      merged.matched)
  else
    let leaflets ← orError (encodeChunks input.order input.leafletTargetRows merged.records merged.history)
    return (leaflets, merged.matched)

/-- A leaflet without novelty keeps its encoding and its history. -/
def passthroughLeaflet (entry : LeafletDirEntryV3) (sidecarBytes : Option (List UInt8)) :
    Except StoreError ProcessedLeafletV3 := do
  let history ← loadExistingHistory entry sidecarBytes
  return ⟨.passthrough entry, history⟩

def processLeaflet (entry : LeafletDirEntryV3)
    (slices : StreamSlices) : Except Fault (List ProcessedLeafletV3 × List RunRecordV2) :=
  if slices.novelty.isEmpty then do
    let leaflet ← orError (passthroughLeaflet entry input.sidecarBytes)
    return ([leaflet], [])
  else mergeAndEncodeLeaflet σ input entry slices

/-- The loop over the leaflets, each with its portion of the streams. -/
def processLeaflets (σ : SortUnstable) (input : LeafUpdateInput) :
    List (LeafletDirEntryV3 × StreamSlices) → Except Fault (List ProcessedLeafletV3 × List RunRecordV2)
  | [] => .ok ([], [])
  | (entry, slices) :: rest => do
    let (leaflets, matched) ← processLeaflet σ input entry slices
    let (leaflets', matched') ← processLeaflets σ input rest
    return (leaflets ++ leaflets', matched ++ matched')

/-! ## Assembly -/

/-- The encoding of a processed leaflet; a passed-on one is put together from its entry. -/
def EncodedLeafletInfo.leaflet : EncodedLeafletInfo → EncodedLeaflet
  | .passthrough entry => entry.toEncodedLeaflet
  | .encoded leaflet => leaflet

def EncodedLeafletInfo.wasReEncoded : EncodedLeafletInfo → Bool
  | .passthrough _ => false
  | .encoded _ => true

def ProcessedLeafletV3.leaflet (p : ProcessedLeafletV3) : EncodedLeaflet := p.encoded.leaflet

/-- Leaflets grouped into leaves: a group ends when it has `target` rows. -/
def groupLeaflets (target : ℕ) (group : List ProcessedLeafletV3) (rows : ℕ) :
    List ProcessedLeafletV3 → List (List ProcessedLeafletV3)
  | [] => if group.isEmpty then [] else [group]
  | p :: rest =>
    let rows := rows + p.leaflet.rowCount
    if rows ≥ target then (group ++ [p]) :: groupLeaflets target [] 0 rest
    else groupLeaflets target (group ++ [p]) rows rest

/-- The placeholder for the keys of an updated leaf: branch code reads the leaf header. -/
def zeroedRecord : RunRecordV2 :=
  { sId := 0, oKey := 0, pId := 0, t := 0, oI := LIST_INDEX_NONE, oType := 0, gId := 0 }

def zeroedKey : OrderedKey := ⟨List.replicate 26 0, List.length_replicate⟩

def buildLeafFromGroup (order : RunSortOrder) (group : List ProcessedLeafletV3) :
    LeafInfo :=
  let builder := group.foldl
    (fun (b : HistSidecarBuilder) p => p.history.foldl pushEntry b.startLeaflet)
    new
  let (sidecarBytes, segRefs) := buildSidecar σ builder
  let leaflets := group.map ProcessedLeafletV3.leaflet
  { leafBytes := buildLeafBlobRawKeys order leaflets segRefs
      ((leaflets.head?.map (·.firstKey)).getD zeroedKey) ((leaflets.getLast?.map (·.lastKey)).getD zeroedKey),
    sidecarBytes, totalRows := (leaflets.map (·.rowCount)).sum, firstKey := zeroedRecord,
    lastKey := zeroedRecord,
    reEncodedLeafletCount := group.countP (fun p => p.encoded.wasReEncoded) }

def assembleOutputLeaves (order : RunSortOrder) (leafTargetRows : ℕ)
    (processed : List ProcessedLeafletV3) : List LeafInfo :=
  (groupLeaflets leafTargetRows [] 0 processed).map (buildLeafFromGroup σ order)

/-- A leaf without novelty, handed on as it is. -/
def passthroughEntireLeaf : LeafUpdateOutput :=
  { leaves := [{ leafBytes := input.leafBytes, sidecarBytes := input.sidecarBytes,
                 totalRows := input.leafBytes.totalRows, firstKey := zeroedRecord,
                 lastKey := zeroedRecord, reEncodedLeafletCount := 0 }],
    matched := [] }

def updateLeaf : Except Fault LeafUpdateOutput :=
  if input.novelty.isEmpty then .ok (passthroughEntireLeaf input)
  else if input.leafletTargetRows = 0 then
    -- the size estimate divides by the target
    .error .panicked
  else do
    let (processed, matched) ← processLeaflets σ input
      (input.leafBytes.entries.zip (sliceStreamsToLeaflets input))
    return { leaves := assembleOutputLeaves σ input.order input.leafTargetRows processed, matched }

end

/-!
## Updating a branch

The novelty of one graph and order is handed out to the leaves of its branch by key. Leaves without
novelty are carried over; the others are fetched, updated and replaced by the leaves that the update
produced.
-/

open Lib

variable {κ : Type}

structure BranchUpdateConfig where
  order : RunSortOrder
  leafletTargetRows : ℕ
  leafTargetRows : ℕ
  /-- Collect the novelty records that met an existing row. -/
  collectMatched : Bool

/-- The results collected so far, in the order of the manifest. -/
structure BranchAcc (κ : Type) where
  leafEntries : List (LeafEntry κ)
  newLeafBlobs : List LeafInfo
  replacedLeafCids : List κ
  replacedSidecarCids : List κ
  matched : List RunRecordV2

def BranchAcc.new : BranchAcc κ := ⟨[], [], [], [], []⟩

variable (cmp : RunRecordV2 → RunRecordV2 → Ordering)

/-- The part of a stream for each leaf: up to the next leaf's first key, the last one gets the
rest. -/
def sliceNoveltyToLeaves (novelty : List (RunRecordV2 × Bool)) : List (LeafEntry κ) → List (List (RunRecordV2 × Bool))
  | [] => []
  | _ :: leaves =>
    sliceAt (fun (e : RunRecordV2 × Bool) b => cmp e.1 b == Ordering.lt) (leaves.map (·.firstKey)) novelty

def sliceStreamsToLeaves (novelty superseded : List (RunRecordV2 × Bool)) (m : BranchManifest κ) : List StreamSlices :=
  List.zipWith StreamSlices.mk (sliceNoveltyToLeaves cmp novelty m.leaves)
    (sliceNoveltyToLeaves cmp superseded m.leaves)

def USIZE_MAX : ℕ := 2 ^ 64 - 1

def saturatingAdd (a b : ℕ) : ℕ := min (a + b) USIZE_MAX

def saturatingMul (a b : ℕ) : ℕ := min (a * b) USIZE_MAX

/-- A leaf may grow to this multiple of the leaf target before it is split. -/
def LEAF_SPLIT_CEILING_FACTOR : ℕ := 2

/-- The input for a touched leaf. A leaf that stays below the ceiling is kept whole. -/
def makeLeafUpdateInput (leafBytes : LeafBlob) (sidecarBytes : Option (List UInt8))
    (slices : StreamSlices) (config : BranchUpdateConfig) : LeafUpdateInput :=
  let estimatedRows := saturatingAdd leafBytes.totalRows slices.novelty.length
  let ceiling := saturatingMul config.leafTargetRows LEAF_SPLIT_CEILING_FACTOR
  { leafBytes, novelty := slices.novelty, superseded := slices.superseded, order := config.order,
    leafletTargetRows := config.leafletTargetRows,
    leafTargetRows := if estimatedRows > ceiling then max config.leafTargetRows 1
      else max config.leafTargetRows (saturatingAdd estimatedRows 1),
    sidecarBytes }

section Update

variable (H : ContentAddressing κ) (σ : SortUnstable) (config : BranchUpdateConfig)

/-- The branch entry of a new leaf, with the keys of its header. -/
def leafEntryOf (order : RunSortOrder) (info : LeafInfo) : LeafEntry κ :=
  { firstKey := readOrderedKeyV2 order info.leafBytes.firstKey,
    lastKey := readOrderedKeyV2 order info.leafBytes.lastKey,
    rowCount := info.totalRows,
    leafCid := H.computeCidLeaf info.leafBytes,
    sidecarCid := info.sidecarBytes.map H.computeCidSidecar }

def carryForward (existing : LeafEntry κ) (acc : BranchAcc κ) : BranchAcc κ :=
  { acc with leafEntries := acc.leafEntries ++ [existing] }

end Update

end Fluree

/-!
## Updating a branch with a sink

`update_branch` with what it leaves open: the closures that fetch leaves and sidecars can fail,
the new leaves go one by one to a sink that can refuse them, and the touched leaves of a window
are worked on by a pool whose tasks finish in any order. The serial loop meets the failures of a
leaf when it comes to it. A window fetches all its leaves first, and a panic of one worker takes
the place of the errors of the others.
-/

namespace Fluree.Streaming

open Lib

variable {κ : Type}

/-- The closures that an update is given. -/
structure Closures (κ : Type) where
  fetchLeaf : κ → Except StoreError LeafBlob
  fetchSidecar : κ → Except StoreError (Option (List UInt8))
  /-- Takes a leaf after those taken before, or fails. -/
  sink : List LeafInfo → LeafInfo → Except StoreError Unit

/-- What the assembly of the root needs to know of an update. -/
structure BranchUpdateMeta (κ : Type) where
  leafEntries : List (LeafEntry κ)
  replacedLeafCids : List κ
  replacedSidecarCids : List κ
  branchBytes : List UInt8
  branchCid : κ
  newLeafCount : ℕ
  matched : List RunRecordV2

section Update

variable (H : ContentAddressing κ) (σ : SortUnstable) (C : Closures κ) (config : BranchUpdateConfig)

/-- The entry of each new leaf is added and the leaf handed to the sink. -/
def drainLeaves : List LeafInfo → BranchAcc κ → Except Fault (BranchAcc κ)
  | [], acc => .ok acc
  | newLeaf :: rest, acc => do
    orError (C.sink acc.newLeafBlobs newLeaf)
    drainLeaves rest
      { acc with
        leafEntries := acc.leafEntries ++ [leafEntryOf H config.order newLeaf],
        newLeafBlobs := acc.newLeafBlobs ++ [newLeaf] }

/-- Adds the leaves that replace `existing`. -/
def drainTouchedOutput (existing : LeafEntry κ) (output : LeafUpdateOutput) (acc : BranchAcc κ) :
    Except Fault (BranchAcc κ) :=
  drainLeaves H C config output.leaves
    { acc with
      replacedLeafCids := acc.replacedLeafCids ++ [existing.leafCid],
      replacedSidecarCids := acc.replacedSidecarCids ++ existing.sidecarCid.toList,
      matched := acc.matched ++ if config.collectMatched then output.matched else [] }

def fetchSidecarOf (existing : LeafEntry κ) : Except Fault (Option (List UInt8)) :=
  match existing.sidecarCid with
  | some cid => orError (C.fetchSidecar cid)
  | none => .ok none

/-- One leaf after the other. -/
def updateBranchSerial : List (LeafEntry κ × StreamSlices) → BranchAcc κ → Except Fault (BranchAcc κ)
  | [], acc => .ok acc
  | (existing, slices) :: rest, acc =>
    if slices.novelty.isEmpty then updateBranchSerial rest (carryForward existing acc)
    else do
      let leafBytes ← orError (C.fetchLeaf existing.leafCid)
      let sidecarBytes ← fetchSidecarOf C existing
      let output ← updateLeaf σ (makeLeafUpdateInput leafBytes sidecarBytes slices config)
      let acc ← drainTouchedOutput H C config existing output acc
      updateBranchSerial rest acc

/-! ## In parallel -/

/-- A touched leaf with its bytes, for a worker. -/
structure LeafWorkUnit where
  manifestIndex : ℕ
  leafBytes : LeafBlob
  sidecarBytes : Option (List UInt8)
  slices : StreamSlices

/-- The touched leaves of a window that starts at index `i`. -/
def workUnits : ℕ → List (LeafEntry κ × StreamSlices) → Except Fault (List LeafWorkUnit)
  | _, [] => .ok []
  | i, (existing, slices) :: rest =>
    if slices.novelty.isEmpty then workUnits (i + 1) rest
    else do
      let leafBytes ← orError (C.fetchLeaf existing.leafCid)
      let sidecarBytes ← fetchSidecarOf C existing
      let units ← workUnits (i + 1) rest
      return ⟨i, leafBytes, sidecarBytes, slices⟩ :: units

def LeafWorkUnit.run (unit : LeafWorkUnit) : Except Fault (ℕ × LeafUpdateOutput) := do
  let output ← updateLeaf σ (makeLeafUpdateInput unit.leafBytes unit.sidecarBytes unit.slices config)
  return (unit.manifestIndex, output)

/-- A result that `collect` takes over; a panic of the worker unwinds instead. -/
def unwind {α : Type} : Option (Except Fault α) → Except Fault (Except StoreError α)
  | some (.ok a) => .ok (.ok a)
  | some (.error (.error e)) => .ok (.error e)
  | _ => .error .panicked

/-- The results of the pool at their offsets in the window; the first error ends it. -/
def outputsByOffset (i : ℕ) : List (Except StoreError (ℕ × LeafUpdateOutput)) →
    List (Option LeafUpdateOutput) → Except Fault (List (Option LeafUpdateOutput))
  | [], slots => .ok slots
  | out :: outs, slots => do
    let (idx, output) ← orError out
    outputsByOffset i outs (slots.set (idx - i) (some output))

/-- The window in manifest order: untouched leaves are carried over, the others replaced. -/
def drainWindow : List (LeafEntry κ × StreamSlices) → List (Option LeafUpdateOutput) → BranchAcc κ →
    Except Fault (BranchAcc κ)
  | (existing, _) :: rest, none :: slots, acc => drainWindow rest slots (carryForward existing acc)
  | (existing, _) :: rest, some output :: slots, acc => do
    let acc ← drainTouchedOutput H C config existing output acc
    drainWindow rest slots acc
  | _, _, acc => .ok acc

/-- The windows one after the other; the tasks of each finish in the order that `pool` gives for
the window's start. -/
def updateBranchWindows (pool : ℕ → CompletionOrder) :
    ℕ → List (List (LeafEntry κ × StreamSlices)) → BranchAcc κ → Except Fault (BranchAcc κ)
  | _, [], acc => .ok acc
  | i, window :: windows, acc => do
    let units ← workUnits C i window
    let outputs ← (fillSlots (LeafWorkUnit.run σ config) units ((pool i).order units.length)).mapM
      unwind
    let slots ← outputsByOffset i outputs (List.replicate window.length none)
    let acc ← drainWindow H C config window slots acc
    updateBranchWindows pool (i + window.length) windows acc

def updateBranchParallel (pool : ℕ → CompletionOrder) (window : ℕ)
    (leaves : List (LeafEntry κ × StreamSlices)) (acc : BranchAcc κ) : Except Fault (BranchAcc κ) :=
  updateBranchWindows H σ C config pool 0 (chunksOf (max window 1) leaves) acc

inductive DrainMode where
  | serial
  | parallel (pool : ℕ → CompletionOrder) (window : ℕ)

/-- The bytes of identifiers and the identifier of a manifest's bytes. -/
structure BranchAddressing (κ : Type) where
  toBytes : κ → List UInt8
  computeBranchCid : List UInt8 → κ

/-- The drain in one of the two ways, then the manifest. The new leaves come with it. -/
def drainBranch (B : BranchAddressing κ) (gId : UInt16) (mode : DrainMode)
    (leaves : List (LeafEntry κ × StreamSlices)) :
    Except Fault (BranchUpdateMeta κ × List LeafInfo) := do
  let acc ← match mode with
    | .serial => updateBranchSerial H σ C config leaves .new
    | .parallel pool window => updateBranchParallel H σ C config pool window leaves .new
  let branchBytes := buildBranchBytes B.toBytes config.order gId acc.leafEntries
  let branchMeta : BranchUpdateMeta κ :=
    { leafEntries := acc.leafEntries,
      replacedLeafCids := acc.replacedLeafCids,
      replacedSidecarCids := acc.replacedSidecarCids,
      branchBytes,
      branchCid := B.computeBranchCid branchBytes,
      newLeafCount := acc.newLeafBlobs.length,
      matched := acc.matched }
  return (branchMeta, acc.newLeafBlobs)

end Update

end Fluree.Streaming

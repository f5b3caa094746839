import Fluree.Read.Column

/-!
# Merging novelty into a leaflet

`mergeNovelty` walks the rows of a decoded leaflet together with the novelty operations of
one indexing window and produces the updated rows and the history entries of the leaflet.
Novelty holds one operation per fact, its winner in the window; the events the winner
superseded come in a second stream and are consumed together with it.

The walk is split at the novelty operations: `mergeWalk` first emits the rows that precede the
next operation, then handles the operation itself against the row it may meet. A panic of
the source (a missing column, or superseded events left over at the end) is `none`.
-/

namespace Fluree

open Lib

section

structure MergeInput where
  batch : ColumnBatch
  existingHistory : List HistEntryV2
  /-- Novelty records with their operation, sorted by `order`. -/
  novelty : List (RunRecordV2 × Bool)
  /-- Events superseded inside the window, sorted by `order`. -/
  superseded : List (RunRecordV2 × Bool)
  order : RunSortOrder

structure MergeOutput where
  records : List RunRecordV2
  history : List HistEntryV2
  /-- Novelty records that met an existing row. -/
  matched : List RunRecordV2

def recordToHistEntry (r : RunRecordV2) (op : Bool) : HistEntryV2 :=
  { sId := r.sId, pId := r.pId, oType := r.oType, oKey := r.oKey, oI := r.oI, t := r.t, op }

/-- A row of a batch against a record. -/
def cmpBatchRowVsRecord (batch : ColumnBatch) (row : ℕ) (rec : RunRecordV2) (order : RunSortOrder) :
    Option Ordering := do
  let sId ← batch.sId.get row
  let pId ← batch.pId.get row
  let oType ← batch.oType.get row
  let oKey ← batch.oKey.get row
  let oI ← batch.oI.getOr row LIST_INDEX_NONE
  return match order with
    | .spot =>
      ((((compare sId rec.sId).then (compare pId rec.pId)).then (compare oType rec.oType)).then
        (compare oKey rec.oKey)).then (compare oI rec.oI)
    | .psot =>
      ((((compare pId rec.pId).then (compare sId rec.sId)).then (compare oType rec.oType)).then
        (compare oKey rec.oKey)).then (compare oI rec.oI)
    | .post =>
      ((((compare pId rec.pId).then (compare oType rec.oType)).then (compare oKey rec.oKey)).then
        (compare oI rec.oI)).then (compare sId rec.sId)
    | .opst =>
      ((((compare oType rec.oType).then (compare oKey rec.oKey)).then (compare oI rec.oI)).then
        (compare pId rec.pId)).then (compare sId rec.sId)

variable (σ : SortUnstable)

/-- New entries newest first, retracts first at one time, followed by the existing ones. -/
def assembleHistory (newHistory existing : List HistEntryV2) : List HistEntryV2 :=
  σ.sort (fun a b => (compare b.t a.t).then (compare a.op b.op)) newHistory ++ existing

/-- One fact's superseded events followed by its winner, and the superseded events left over. -/
def gatherIdentityEvents (superseded : List (RunRecordV2 × Bool)) (nov : RunRecordV2) (op : Bool) :
    List (RunRecordV2 × Bool) × List (RunRecordV2 × Bool) :=
  let same := fun e : RunRecordV2 × Bool => sameIdentityV2 e.1 nov
  (superseded.takeWhile same ++ [(nov, op)], superseded.dropWhile same)

variable (events : List (RunRecordV2 × Bool))

/-- The history entries of one fact's events, and whether its state changed. -/
def pushTransitionEntries (basePresent : Bool) :
    List HistEntryV2 × Bool :=
  let (kept, row) := resolveTransitions σ events basePresent
  (kept.map (fun e => recordToHistEntry e.1 e.2), row.isSome || !kept.isEmpty)

/-- What one novelty operation contributes. -/
structure MergeStep where
  rows : List RunRecordV2
  entries : List HistEntryV2
  matched : List RunRecordV2

/-- An operation on a fact without a row: its lifecycle starts absent. -/
def absentStep (nov : RunRecordV2) (op : Bool) :
    MergeStep :=
  { rows := if op then [nov] else [],
    entries := (pushTransitionEntries σ events false).1,
    matched := [] }

/-- An operation on a fact with a row. The row's own assert moves into the history; a plain
re-assert is recorded as a retract of the old row at the time of the new one. -/
def presentStep (row nov : RunRecordV2)
    (op : Bool) : MergeStep :=
  let (entries, changed) := pushTransitionEntries σ events true
  { rows := if op then [nov] else [],
    entries := recordToHistEntry row true :: entries ++
      (if op && !changed then [{ recordToHistEntry row false with t := nov.t }] else []),
    matched := [nov] }

/-- The state of the walk: output rows, new history entries, matched operations and the
superseded events not consumed yet. -/
structure MergeWalk where
  out : List RunRecordV2
  newHistory : List HistEntryV2
  matched : List RunRecordV2
  rest : List (RunRecordV2 × Bool)

def mergeWalk (σ : SortUnstable) (order : RunSortOrder) :
    List RunRecordV2 → List (RunRecordV2 × Bool) → List (RunRecordV2 × Bool) → MergeWalk
  | rows, [], superseded => ⟨rows, [], [], superseded⟩
  | rows, (nov, op) :: novelty, superseded =>
    -- rows the loop emits before it reaches this operation
    let before := rows.takeWhile (fun r => cmpV2ForOrder order r nov == Ordering.lt)
    let rows' := rows.dropWhile (fun r => cmpV2ForOrder order r nov == Ordering.lt)
    let (events, superseded') := gatherIdentityEvents superseded nov op
    let (step, rows'') :=
      match rows' with
      | [] => (absentStep σ events nov op, [])
      | r :: rs =>
        if cmpV2ForOrder order r nov == Ordering.eq then (presentStep σ events r nov op, rs)
        else (absentStep σ events nov op, r :: rs)
    let w := mergeWalk σ order rows'' novelty superseded'
    { out := before ++ step.rows ++ w.out, newHistory := step.entries ++ w.newHistory,
      matched := step.matched ++ w.matched, rest := w.rest }

/-- Merges novelty into a leaflet; `none` when a needed column is missing or when a superseded
event has no winner in the novelty. -/
def mergeNovelty (input : MergeInput) : Option MergeOutput := do
  let rows ← columnBatchToRecords input.batch
  let w := mergeWalk σ input.order rows input.novelty input.superseded
  guard w.rest.isEmpty
  return { records := w.out, history := assembleHistory σ w.newHistory input.existingHistory,
           matched := w.matched }

end

/-!
## Resolving an indexing window

The events of the commits in one indexing window are sorted by graph and SPOT order,
deduplicated to one winning operation per fact, and converted to V2 records. Events that a
later operation of the same fact replaced are kept in a second stream.
-/

section

/-- Same value: the fields of the event order before `dt`, `t` and `op`. -/
def sameSortPrefix (a b : RunRecord) : Bool :=
  a.gId == b.gId && a.sId == b.sId && a.pId == b.pId && a.oKind == b.oKind && a.oKey == b.oKey

/-- Fact identity inside a group of events with one value: `(oType, oI)`. -/
def RunRecord.resolvedIdentity (reg : OTypeRegistry) (r : RunRecord) : UInt16 × UInt32 :=
  (r.oType reg, r.i)

/-- `(identity, t, op)`. -/
def cmpLifecycle (reg : OTypeRegistry) (a b : RunRecord) : Ordering :=
  (((compare (a.resolvedIdentity reg).1 (b.resolvedIdentity reg).1).then
    (compare (a.resolvedIdentity reg).2 (b.resolvedIdentity reg).2)).then
    (compare a.t b.t)).then (compare a.op b.op)

/-- `(dt, t, op)`. -/
def cmpWinner (a b : RunRecord) : Ordering :=
  ((compare a.dt b.dt).then (compare a.t b.t)).then (compare a.op b.op)

/-- The event leaves the winner in place: a re-assert of an asserted fact, or an assert at the
time of a winning retract. -/
def keepsWinner (winner rec : RunRecord) : Bool :=
  let noopReassert := rec.op && winner.op
  let sameTRetractWins := rec.op && !winner.op && rec.t == winner.t
  noopReassert || sameTRetractWins

/-- Walks sorted events behind the current winner; gives the winners and the replaced ones. -/
def dedupWalk (reg : OTypeRegistry) : RunRecord → List RunRecord → List RunRecord × List RunRecord
  | winner, [] => ([winner], [])
  | winner, rec :: rest =>
    if rec.resolvedIdentity reg ≠ winner.resolvedIdentity reg then
      let r := dedupWalk reg rec rest
      (winner :: r.1, r.2)
    else if keepsWinner winner rec then
      dedupWalk reg winner rest
    else
      let r := dedupWalk reg rec rest
      (r.1, winner :: r.2)

variable (σ : SortUnstable) (reg : OTypeRegistry)

/-- Winners and superseded events of the events of one value. -/
def dedupGroup (group : List RunRecord) :
    List RunRecord × List RunRecord :=
  match σ.sort (cmpLifecycle reg) group with
  | [] => ([], [])
  | first :: rest =>
    let r := dedupWalk reg first rest
    (σ.sort cmpWinner r.1, r.2)

/-- One group; a single event needs no resolution. -/
def dedupRun (run : List RunRecord) :
    List RunRecord × List RunRecord :=
  if run.length = 1 then (run, []) else dedupGroup σ reg run

/-- Winners and superseded events of a window sorted by graph and SPOT order. -/
def dedupFactLifecycles (records : List RunRecord) :
    List RunRecord × List RunRecord :=
  let runs := runsBy sameSortPrefix records
  (runs.flatMap (fun run => (dedupRun σ reg run).1), runs.flatMap (fun run => (dedupRun σ reg run).2))

/-- The novelty of one window: winning operations and superseded events. -/
structure IncrementalNovelty where
  records : List (RunRecordV2 × Bool)
  superseded : List (RunRecordV2 × Bool)

def RunRecord.toV2 (r : RunRecord) : RunRecordV2 × Bool := (RunRecordV2.fromV1 reg r, r.op)

/-- Sort, deduplicate and convert the events of a window. -/
def resolveWindow (events : List RunRecord) :
    IncrementalNovelty :=
  let d := dedupFactLifecycles σ reg (σ.sort cmpGraphSpot events)
  { records := d.1.map (RunRecord.toV2 reg), superseded := d.2.map (RunRecord.toV2 reg) }

/-- The part of a stream that concerns one graph, sorted for one index order. -/
def graphStream (order : RunSortOrder) (g : UInt16)
    (l : List (RunRecordV2 × Bool)) : List (RunRecordV2 × Bool) :=
  σ.sort (fun a b => cmpV2ForOrder order a.1 b.1) (l.filter (fun e => e.1.gId == g))

end

/-!
## Indexing one leaflet window by window

One leaflet of one graph and sort order: its decoded rows and its history. Each indexing
window resolves its events, merges them into the leaflet, and stores the new history in a
sidecar from which the next window and time-travel reads decode it.
-/

open HistSidecarBuilder

/-- Decoded rows and history of one leaflet. -/
structure LeafletState where
  batch : ColumnBatch
  history : List HistEntryV2

def LeafletState.empty : LeafletState := ⟨.ofRecords [], []⟩

variable (σ : SortUnstable)

/-- Entries written to a sidecar with one leaflet and decoded again. -/
def storeHistory (entries : List HistEntryV2) :
    Except StoreError (List HistEntryV2) :=
  let builder := entries.foldl pushEntry new.startLeaflet
  let (bytes, refs) := builder.build σ
  match refs with
  | seg :: _ => decodeHistorySegment bytes seg
  | [] => .ok []

variable (reg : OTypeRegistry) (order : RunSortOrder)

def windowInput (g : UInt16)
    (st : LeafletState) (events : List RunRecord) : MergeInput :=
  let nov := resolveWindow σ reg events
  { batch := st.batch, existingHistory := st.history,
    novelty := graphStream σ order g nov.records,
    superseded := graphStream σ order g nov.superseded, order }

/-- One indexing window; `none` when the merge panics or the history cannot be read back. -/
def indexWindow (g : UInt16)
    (st : LeafletState) (events : List RunRecord) : Option LeafletState := do
  let out ← mergeNovelty σ (windowInput σ reg order g st events)
  let history ← (storeHistory σ out.history).toOption
  return ⟨.ofRecords out.records, history⟩

/-- A series of windows, starting from an empty leaflet. -/
def indexWindows (g : UInt16)
    (windows : List (List RunRecord)) : Option LeafletState :=
  windows.foldlM (indexWindow σ reg order g) LeafletState.empty

/-- The rows a time-travel read of the leaflet yields; `none` is a panic. -/
def LeafletState.rowsAt (st : LeafletState) (tTarget : ℤ) :
    Option (List RunRecordV2) := do
  let replayed ← replayLeaflet σ st.batch st.history tTarget order
  columnBatchToRecords (replayed.getD st.batch)

end Fluree

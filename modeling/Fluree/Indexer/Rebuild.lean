import Fluree.Lib.Merge
import Fluree.Indexer.Window

/-!
# K-way merge of sorted runs

A full rebuild reads its events from run files, each sorted in the order being built, and
merges them through a binary heap of stream fronts. `nextDedupedWithHistory` takes the events
of one fact off the merge: the one with the highest `t` as the winner, the others as history.

A stream is the list of records its reader still has to deliver; read errors are left out.
-/

namespace Fluree

open Lib

/-- The front of one stream. -/
structure HeapEntry where
  record : RunRecordV2
  op : Bool
  streamIdx : ℕ

structure KWayMerge where
  heap : Array HeapEntry
  streams : List (List (RunRecordV2 × Bool))

namespace KWayMerge

variable (order : RunSortOrder)

/-- Records by the order of the index, at one position the earlier stream first. -/
def heapLess (a b : HeapEntry) : Bool :=
  match cmpV2ForOrder order a.record b.record with
  | .lt => true
  | .gt => false
  | .eq => a.streamIdx < b.streamIdx

/-- The fronts of the streams, the first of which has index `n`. -/
def fronts (n : ℕ) : List (List (RunRecordV2 × Bool)) → List HeapEntry
  | [] => []
  | s :: ss => (s.head?.map (fun e => ⟨e.1, e.2, n⟩)).toList ++ fronts (n + 1) ss

def new (streams : List (List (RunRecordV2 × Bool))) : KWayMerge :=
  { heap := Heap.heapify (heapLess order) (fronts 0 streams).toArray, streams }

/-- The next record in sort order. The stream it came from is advanced; its new front takes the
place at the top of the heap, or the last entry does when the stream is exhausted. -/
def nextRecord (m : KWayMerge) : Option ((RunRecordV2 × Bool) × KWayMerge) :=
  match m.heap[0]? with
  | none => none
  | some w =>
    let streams := m.streams.modify w.streamIdx List.tail
    let heap :=
      match (streams[w.streamIdx]?.bind List.head?) with
      | some (record, op) =>
        Heap.siftDown (heapLess order) (m.heap.setIfInBounds 0 ⟨record, op, w.streamIdx⟩) 0
      | none =>
        let h := (m.heap.swapIfInBounds 0 (m.heap.size - 1)).pop
        if h.isEmpty then h else Heap.siftDown (heapLess order) h 0
    some ((w.record, w.op), { heap, streams })

def pending (m : KWayMerge) : ℕ := m.streams.flatten.length

/-- Consumes the records behind the winner that share its identity; the one with the highest `t`
becomes the winner, the others go to the history. -/
def takeDuplicates (order : RunSortOrder) : ℕ → KWayMerge → RunRecordV2 × Bool →
    List (RunRecordV2 × Bool) → (RunRecordV2 × Bool) × List (RunRecordV2 × Bool) × KWayMerge
  | 0, m, winner, history => (winner, history, m)
  | fuel + 1, m, winner, history =>
    match m.heap[0]? with
    | none => (winner, history, m)
    | some peeked =>
      if !sameIdentityV2 winner.1 peeked.record then (winner, history, m)
      else
        match nextRecord order m with
        | none => (winner, history, m)
        | some (dup, m') =>
          if dup.1.t > winner.1.t then takeDuplicates order fuel m' dup (history ++ [winner])
          else takeDuplicates order fuel m' winner (history ++ [dup])

/-- The next fact: its winning record and its other records. -/
def nextDedupedWithHistory (m : KWayMerge) :
    Option ((RunRecordV2 × Bool) × List (RunRecordV2 × Bool) × KWayMerge) :=
  match nextRecord order m with
  | none => none
  | some (winner, m') => some (takeDuplicates order m'.pending m' winner [])

end KWayMerge

/-!
## Full rebuild of one index order

The rebuild loop takes the facts off the merge one by one and resolves the complete event log
of each to its state transitions, starting absent: the entries for the history sidecar and the
row when the fact is present at the end.
-/

structure RebuiltFact where
  entries : List HistEntryV2
  row : Option RunRecordV2

variable (σ : SortUnstable)

def resolveFact (events : List (RunRecordV2 × Bool)) : RebuiltFact :=
  let (kept, row) := resolveTransitions σ events false
  { entries := kept.map (fun e => recordToHistEntry e.1 e.2), row }

/-- The merge loop of `build_index`, over at most `fuel` facts. -/
def rebuildLoop (σ : SortUnstable) (order : RunSortOrder) : ℕ → KWayMerge → List RebuiltFact
  | 0, _ => []
  | fuel + 1, m =>
    match m.nextDedupedWithHistory order with
    | none => []
    | some (winner, history, m') =>
      resolveFact σ (history ++ [winner]) :: rebuildLoop σ order fuel m'

def rebuild (order : RunSortOrder) (runs : List (List (RunRecordV2 × Bool))) :
    List RebuiltFact :=
  rebuildLoop σ order runs.flatten.length (KWayMerge.new order runs)

/-- The rows and the history of a rebuild as one leaflet; `none` when the history cannot be read
back. -/
def rebuildLeaflet (order : RunSortOrder)
    (runs : List (List (RunRecordV2 × Bool))) : Option LeafletState := do
  let facts := rebuild σ order runs
  let history ← (storeHistory σ (facts.flatMap RebuiltFact.entries)).toOption
  return ⟨.ofRecords (facts.filterMap RebuiltFact.row), history⟩

end Fluree

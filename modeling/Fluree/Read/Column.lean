import Fluree.Lib.Runs
import Mathlib.Data.List.Induction
import Fluree.Lib.AssocMap
import Fluree.Format.History

/-!
# Overlay operations

Facts that are not indexed yet reach a query as overlay operations in the ids of the index.
They are sorted in the cursor's order, and `resolveOverlayOps` reduces the operations of each
fact to the one that decides its presence.
-/

namespace Fluree

section

open Lib

structure OverlayOp where
  sId : UInt64
  pId : UInt32
  oType : UInt16
  oKey : UInt64
  oI : UInt32
  t : ℤ
  /-- An assert, not a retract. -/
  op : Bool
  deriving DecidableEq

def OverlayOp.factKey (ov : OverlayOp) : FactKeyV3 := ⟨ov.sId, ov.pId, ov.oType, ov.oKey, ov.oI⟩

variable (order : RunSortOrder)

def cmpOverlayV3 (a b : OverlayOp) : Ordering := cmpKey order a.factKey b.factKey

def sortOverlayOps (σ : SortUnstable) (order : RunSortOrder) (ops : List OverlayOp) : List OverlayOp :=
  σ.sort (cmpOverlayV3 order) ops

/-- The operation of a fact that wins: the highest `t`, on a tie the retract. -/
def bestOp : List OverlayOp → Option OverlayOp
  | [] => none
  | first :: rest => some (rest.foldl (keepBetter OverlayOp.t OverlayOp.op) first)

/-- One operation per run of equal facts. -/
def resolveOverlayOps (ops : List OverlayOp) : List OverlayOp :=
  if ops.length < 2 then ops
  else (runsBy (fun first op => op.factKey == first.factKey) ops).filterMap bestOp

/-- A decoded row against an overlay operation. -/
def cmpRowVsOverlay (sId : UInt64) (pId : UInt32) (oType : UInt16) (oKey : UInt64) (oI : UInt32)
    (ov : OverlayOp) : RunSortOrder → Ordering
  | .spot =>
    ((((compare sId ov.sId).then (compare pId ov.pId)).then (compare oType ov.oType)).then
      (compare oKey ov.oKey)).then (compare oI ov.oI)
  | .psot =>
    ((((compare pId ov.pId).then (compare sId ov.sId)).then (compare oType ov.oType)).then
      (compare oKey ov.oKey)).then (compare oI ov.oI)
  | .post =>
    ((((compare pId ov.pId).then (compare oType ov.oType)).then (compare oKey ov.oKey)).then
      (compare oI ov.oI)).then (compare sId ov.sId)
  | .opst =>
    ((((compare oType ov.oType).then (compare oKey ov.oKey)).then (compare oI ov.oI)).then
      (compare pId ov.pId)).then (compare sId ov.sId)

/-- An overlay operation against a key of the branch. -/
def cmpOverlayVsRecord (ov : OverlayOp) (rec : RunRecordV2) : RunSortOrder → Ordering
  | .spot =>
    ((((compare ov.sId rec.sId).then (compare ov.pId rec.pId)).then
      (compare ov.oType rec.oType)).then (compare ov.oKey rec.oKey)).then (compare ov.oI rec.oI)
  | .psot =>
    ((((compare ov.pId rec.pId).then (compare ov.sId rec.sId)).then
      (compare ov.oType rec.oType)).then (compare ov.oKey rec.oKey)).then (compare ov.oI rec.oI)
  | .post =>
    ((((compare ov.pId rec.pId).then (compare ov.oType rec.oType)).then
      (compare ov.oKey rec.oKey)).then (compare ov.oI rec.oI)).then (compare ov.sId rec.sId)
  | .opst =>
    ((((compare ov.oType rec.oType).then (compare ov.oKey rec.oKey)).then
      (compare ov.oI rec.oI)).then (compare ov.pId rec.pId)).then (compare ov.sId rec.sId)

end

/-!
## Columnar batches

The decoded columns of one leaflet. A column is materialised, constant, or absent; reading an
absent column where no default is given panics, as does an index past the end, and both are
`none` here.

`columnBatchToRecords_ofRecords`: a batch assembled from full rows holds those rows.
-/

section

open List RunRecordV2

/-- One column of a leaflet. -/
inductive ColumnData (α : Type) where
  | block (values : List α)
  | const (value : α)
  | absentDefault

namespace ColumnData

variable {α : Type}

/-- The value at an index; `none` is a panic. -/
def get : ColumnData α → ℕ → Option α
  | block vs, i => vs[i]?
  | const v, _ => some v
  | absentDefault, _ => none

/-- The value at an index, or the default when the column is absent. -/
def getOr : ColumnData α → ℕ → α → Option α
  | block vs, i, _ => vs[i]?
  | const v, _, _ => some v
  | absentDefault, _, d => some d

end ColumnData

/-- One leaflet's decoded columns. -/
structure ColumnBatch where
  rowCount : ℕ
  sId : ColumnData UInt64
  oKey : ColumnData UInt64
  pId : ColumnData UInt32
  oType : ColumnData UInt16
  oI : ColumnData UInt32
  t : ColumnData UInt32

def ColumnBatch.empty : ColumnBatch :=
  { rowCount := 0, sId := .absentDefault, oKey := .absentDefault, pId := .absentDefault,
    oType := .absentDefault, oI := .absentDefault, t := .absentDefault }

/-- A row of a batch as a record; a batch does not know its graph. -/
def batchRowToRecord (batch : ColumnBatch) (row : ℕ) : Option RunRecordV2 := do
  let sId ← batch.sId.get row
  let oKey ← batch.oKey.get row
  let pId ← batch.pId.get row
  let t ← batch.t.getOr row 0
  let oI ← batch.oI.getOr row LIST_INDEX_NONE
  let oType ← batch.oType.get row
  return { sId, oKey, pId, t, oI, oType, gId := 0 }

def columnBatchToRecords (batch : ColumnBatch) : Option (List RunRecordV2) :=
  (List.range batch.rowCount).mapM (batchRowToRecord batch)

/-- A batch of full rows; the list-index column is stored only when some row has one. -/
def ColumnBatch.ofRecords (rs : List RunRecordV2) : ColumnBatch :=
  { rowCount := rs.length,
    sId := .block (rs.map (·.sId)),
    oKey := .block (rs.map (·.oKey)),
    pId := .block (rs.map (·.pId)),
    oType := .block (rs.map (·.oType)),
    oI := if rs.any (fun r => r.oI != LIST_INDEX_NONE) then .block (rs.map (·.oI))
      else .absentDefault,
    t := .block (rs.map (·.t)) }

def RunRecordV2.ungraphed (r : RunRecordV2) : RunRecordV2 := { r with gId := 0 }

@[simp] lemma RunRecordV2.ungraphed_factKey (r : RunRecordV2) :
    r.ungraphed.factKey = r.factKey := rfl

@[simp] lemma RunRecordV2.ungraphed_t (r : RunRecordV2) : r.ungraphed.t = r.t := rfl

@[simp] lemma RunRecordV2.ungraphed_pos (order : RunSortOrder) (r : RunRecordV2) :
    r.ungraphed.pos order = r.pos order := rfl

lemma mapM_range_eq_some {α : Type} {f : ℕ → Option α} {l : List α}
    (h : ∀ i, f i = l[i]? ∨ l.length ≤ i) : (List.range l.length).mapM f = some l := by
  induction l using List.reverseRecOn with
  | nil => rfl
  | append_singleton l a ih =>
    have hl : ∀ i, f i = l[i]? ∨ l.length ≤ i := by
      intro i
      rcases h i with h | h
      · rcases Nat.lt_or_ge i l.length with hi | hi
        · exact .inl (by rw [h, List.getElem?_append_left hi])
        · exact .inr hi
      · exact .inr (by simp at h; omega)
    have ha : f l.length = some a := by
      rcases h l.length with h | h
      · rw [h]; simp
      · simp at h
    rw [length_append, length_singleton, range_succ, mapM_append, ih hl]
    simp [ha]

lemma columnBatchToRecords_of_rows {batch : ColumnBatch} {rs : List RunRecordV2}
    (hcount : batch.rowCount = rs.length)
    (hrow : ∀ i (hi : i < rs.length), batchRowToRecord batch i = some (rs[i]).ungraphed) :
    columnBatchToRecords batch = some (rs.map ungraphed) := by
  have hget : ∀ i, batchRowToRecord batch i = (rs.map ungraphed)[i]? ∨
      (rs.map ungraphed).length ≤ i := by
    intro i
    rcases Nat.lt_or_ge i rs.length with hi | hi
    · left
      rw [hrow i hi]
      simp [hi]
    · right
      simpa using hi
  have h := mapM_range_eq_some hget
  rw [length_map] at h
  rw [columnBatchToRecords, hcount, h]

/-- **A batch assembled from full rows holds those rows.** -/
lemma columnBatchToRecords_ofRecords (rs : List RunRecordV2) :
    columnBatchToRecords (.ofRecords rs) = some (rs.map ungraphed) := by
  refine columnBatchToRecords_of_rows rfl fun i hi => ?_
  have hoI : (ColumnBatch.ofRecords rs).oI.getOr i LIST_INDEX_NONE = some rs[i].oI := by
    unfold ColumnBatch.ofRecords
    split
    · simp [ColumnData.getOr, hi]
    rename_i hnone
    simp only [any_eq_true, bne_iff_ne, ne_eq, not_exists, not_and, not_not] at hnone
    simp [ColumnData.getOr, hnone rs[i] (getElem_mem hi)]
  simp only [batchRowToRecord, hoI]
  simp [ColumnBatch.ofRecords, ColumnData.get, ColumnData.getOr, hi, ungraphed]

end

/-!
## Time-travel replay

`replayLeaflet` reconstructs the rows of a leaflet at an earlier time from its current rows
and its history entries. Everything that happened after the target time is undone, newest
first; what remains decides which current rows are dropped and which facts are restored from
the history.
-/

open Lib AssocMap

/-- An assert or retract after the target time. -/
structure UndoEvent where
  absT : UInt32
  isAssert : Bool
  key : FactKeyV3
  source : Option HistEntryV2

/-- Presence of a fact while undoing, and the entry to restore it from. -/
structure FactState where
  present : Bool
  includeSrc : Option HistEntryV2

def histEntryToRecord (e : HistEntryV2) : RunRecordV2 :=
  { sId := e.sId, oKey := e.oKey, pId := e.pId, t := e.t, oI := e.oI, oType := e.oType, gId := 0 }

/-- The first assert of a fact at or before the target; history is newest first. -/
def findBaseAssertAtTarget (key : FactKeyV3) (history : List HistEntryV2) (tTarget : UInt32) :
    Option HistEntryV2 :=
  history.find? (fun e => e.t ≤ tTarget && e.op && e.factKey == key)

/-- Current rows by identity: time and row index. -/
def membership (rows : List RunRecordV2) : List (FactKeyV3 × (UInt32 × ℕ)) :=
  rows.zipIdx.foldl (fun m r => insert m r.1.factKey (r.1.t, r.2)) []

/-- What happened after the target time, from the history (newest first) and from the rows. -/
def undoEvents (rows : List RunRecordV2) (history : List HistEntryV2) (tTarget : UInt32) :
    List UndoEvent :=
  (history.takeWhile (fun e => tTarget < e.t)).map
      (fun e => { absT := e.t, isAssert := e.op, key := e.factKey, source := some e }) ++
    (rows.filter (fun r => tTarget < r.t)).map
      (fun r => { absT := r.t, isAssert := true, key := r.factKey, source := none })

/-- Newest first, asserts before retracts at one time. -/
def cmpUndo (a b : UndoEvent) : Ordering :=
  (compare b.absT a.absT).then (compare b.isAssert a.isAssert)

def undo (e : UndoEvent) (st : FactState) : FactState :=
  if e.isAssert then { st with present := false }
  else { present := true, includeSrc := if st.includeSrc.isNone then e.source else st.includeSrc }

/-- Before anything is undone a fact is present when it has a row. -/
def initialState (members : List (FactKeyV3 × (UInt32 × ℕ))) (key : FactKeyV3) : FactState :=
  { present := (get? members key).isSome, includeSrc := none }

def factStates (members : List (FactKeyV3 × (UInt32 × ℕ))) (events : List UndoEvent) :
    List (FactKeyV3 × FactState) :=
  events.foldl (fun m e => upsert m e.key (initialState members e.key) (undo e)) []

/-- The index of a current row that does not belong to the target state. -/
def excludeOf (members : List (FactKeyV3 × (UInt32 × ℕ))) (tTarget : UInt32)
    (s : FactKeyV3 × FactState) : Option ℕ :=
  match get? members s.1 with
  | some (baseT, row) => if !s.2.present || tTarget < baseT then some row else none
  | none => none

def includeOf (members : List (FactKeyV3 × (UInt32 × ℕ))) (history : List HistEntryV2)
    (tTarget : UInt32) (s : FactKeyV3 × FactState) : Option RunRecordV2 :=
  let restored := ((findBaseAssertAtTarget s.1 history tTarget).or s.2.includeSrc).map histEntryToRecord
  match get? members s.1 with
  | none => if s.2.present then restored else none
  | some (baseT, _) => if s.2.present && tTarget < baseT then restored else none

/-- Merge kept rows with restored ones; at the same position the restored one wins. -/
def mergeIncludes (order : RunSortOrder) : List RunRecordV2 → List RunRecordV2 → List RunRecordV2
  | bases, [] => bases
  | bases, inc :: includes =>
    let before := bases.takeWhile (fun b => cmpV2ForOrder order b inc == Ordering.lt)
    let rest := bases.dropWhile (fun b => cmpV2ForOrder order b inc == Ordering.lt)
    let rest' := match rest with
      | [] => []
      | b :: bs => if cmpV2ForOrder order b inc == Ordering.eq then bs else b :: bs
    before ++ inc :: mergeIncludes order rest' includes

/-- The rows of a leaflet at the target time, when something has to be undone. -/
def replayRows (σ : SortUnstable) (order : RunSortOrder) (rows : List RunRecordV2)
    (history : List HistEntryV2) (tTarget : UInt32) : Option (List RunRecordV2) :=
  let members := membership rows
  let events := undoEvents rows history tTarget
  if events.isEmpty then none
  else
    let states := factStates members (σ.sort cmpUndo events)
    let excluded := states.filterMap (excludeOf members tTarget)
    let includes := σ.sort (cmpV2ForOrder order) (states.filterMap (includeOf members history tTarget))
    let bases := (rows.zipIdx.filter (fun r => !excluded.contains r.2)).map Prod.fst
    some (mergeIncludes order bases includes)

/-- Replay a leaflet to `tTarget`. The outer `none` is a panic on a missing column; the inner
`none` means that the batch is already right. -/
def replayLeaflet (σ : SortUnstable) (batch : ColumnBatch) (history : List HistEntryV2)
    (tTarget : ℤ) (order : RunSortOrder) : Option (Option ColumnBatch) :=
  if tTarget > 4294967295 then some none
  else if tTarget < 0 then some (some .empty)
  else do
    let rows ← columnBatchToRecords batch
    return (replayRows σ order rows history (.ofNat tTarget.toNat)).map ColumnBatch.ofRecords

end Fluree

import Fluree.Lib.SortedMap

/-!
# Staging a transaction

`stageWithGraphDelta` instantiates the delete and insert templates with the solutions of the WHERE
clause, batch by batch, and counts for each fact how often it is retracted and asserted. Equal
numbers of both cancel; of a surplus one flake is staged (`finalize`). A fact is a flake with its
graph, without time and operation.

A batch is projected to the variables of the templates before it is used. One that has neither rows
nor columns then counts as one empty solution: that is how the cursor says that there is no WHERE
clause, and what a batch without rows becomes when no template uses its variables.
-/

namespace Fluree.Transact

open Lib

inductive TxnType where
  | insert
  | upsert
  | update
deriving DecidableEq

structure Txn (Template : Type) where
  txnType : TxnType
  deleteTemplates : List Template
  insertTemplates : List Template
  /-- The transaction makes a graph equal to its payload. -/
  syncGraph : Bool

/-- A batch of solutions: in each row a value for each variable of the schema. -/
structure Batch (Var Binding : Type) where
  schema : List Var
  rows : List (Var → Binding)

structure FlakeBucket where
  assertCount : ℕ
  retractCount : ℕ

variable {Template Var Binding Fact ε : Type} [DecidableEq Fact] [DecidableEq Var]

inductive FlakeAccumulator (Fact : Type) where
  | pureRetract (facts : List Fact)
  | mixed (setAssertions : Bool) (buckets : KeyedMap Fact FlakeBucket)

/-- `saturating_add(1)` on `u32`. -/
def countOne (n : ℕ) : ℕ := min (n + 1) (2 ^ 32 - 1)

def FlakeBucket.add (setAssertions op : Bool) (b : FlakeBucket) : FlakeBucket :=
  if op then
    if setAssertions && decide (0 < b.assertCount) then b
    else { b with assertCount := countOne b.assertCount }
  else { b with retractCount := countOne b.retractCount }

def pushIntoMixed (setAssertions op : Bool) (buckets : KeyedMap Fact FlakeBucket) (f : Fact) :
    KeyedMap Fact FlakeBucket :=
  match buckets.lookup f with
  | some b => buckets.insert f (b.add setAssertions op)
  | none => buckets.insert f (if op then ⟨1, 0⟩ else ⟨0, 1⟩)

namespace FlakeAccumulator

def pushRetractions (acc : FlakeAccumulator Fact) (flakes : List Fact) : FlakeAccumulator Fact :=
  match acc with
  | .pureRetract facts => .pureRetract (flakes.foldl (fun facts f => facts.insert f) facts)
  | .mixed set buckets => .mixed set (flakes.foldl (pushIntoMixed set false) buckets)

def pushAssertions (acc : FlakeAccumulator Fact) (flakes : List Fact) : FlakeAccumulator Fact :=
  match acc with
  -- panics on a flake; the caller generates none in this mode
  | .pureRetract facts => .pureRetract facts
  | .mixed set buckets => .mixed set (flakes.foldl (pushIntoMixed set true) buckets)

/-- The staged flakes with their operation. -/
def finalize : FlakeAccumulator Fact → List (Fact × Bool)
  | .pureRetract facts => facts.map (·, false)
  | .mixed _ buckets => buckets.entries.flatMap fun e =>
    let cancel := min e.2.assertCount e.2.retractCount
    (if cancel < e.2.assertCount then [(e.1, true)] else []) ++
      if cancel < e.2.retractCount then [(e.1, false)] else []

end FlakeAccumulator

namespace Batch

variable (batch : Batch Var Binding)

def get (row : Var → Binding) (v : Var) : Option Binding :=
  if v ∈ batch.schema then some (row v) else none

/-- The columns of `vars`. The rows stay, also when no column is left. -/
def projectOwned (vars : List Var) : Batch Var Binding :=
  { batch with schema := (vars.filter (· ∈ batch.schema)).eraseDups }

/-- The rows for which templates are instantiated. -/
def templateRows : List (Var → Option Binding) :=
  if batch.rows.isEmpty then if batch.schema.isEmpty then [fun _ => none] else []
  else batch.rows.map batch.get

end Batch

/-- What a template becomes, given the values of its variables and the number of the solution, after
which blank nodes are named. A template with an unbound variable gives no flake. -/
structure Materializer (Template Var Binding Fact ε : Type) where
  vars : Template → List Var
  run : Template → ℕ → List (Option Binding) → Except ε (Option Fact)

variable (m : Materializer Template Var Binding Fact ε)

def materializeTemplate (row : (Var → Option Binding) × ℕ) (template : Template) :
    Except ε (Option Fact) :=
  m.run template row.2 ((m.vars template).map row.1)

/-- The flakes of all templates for all rows, the first of which has the number `base`. -/
def instantiate (templates : List Template) (base : ℕ) (rows : List (Var → Option Binding)) :
    Except ε (List Fact) := do
  let flakes ← (rows.zipIdx base).mapM fun row => templates.mapM (materializeTemplate m row)
  .ok (flakes.flatMap List.reduceOption)

def generateFlakes (templates : List Template) (base : ℕ) (batch : Batch Var Binding) :
    Except ε (List Fact) :=
  instantiate m templates base batch.templateRows

def collectTemplateVars (templates : List Template) : List Var :=
  (templates.flatMap m.vars).eraseDups

/-- The variables that a batch is projected to. -/
def templateVars (txn : Txn Template) (pureDelete : Bool) : List Var :=
  collectTemplateVars m
    (if pureDelete then txn.deleteTemplates else txn.deleteTemplates ++ txn.insertTemplates)

/-- One batch, with the number of rows before it. -/
def streamBatch (txn : Txn Template) (pureDelete : Bool) (s : FlakeAccumulator Fact × ℕ)
    (batch : Batch Var Binding) : Except ε (FlakeAccumulator Fact × ℕ) := do
  let projected := batch.projectOwned (templateVars m txn pureDelete)
  let retractions ← generateFlakes m txn.deleteTemplates s.2 projected
  let acc := s.1.pushRetractions retractions
  if pureDelete then .ok (acc, s.2 + batch.rows.length)
  else
    let assertions ← generateFlakes m txn.insertTemplates s.2 projected
    .ok (acc.pushAssertions assertions, s.2 + batch.rows.length)

/-- What the cursor of a WHERE clause emits; `none` is an update without one. -/
def whereBatches (cursor : Option (List (Batch Var Binding))) : List (Batch Var Binding) :=
  cursor.getD [⟨[], []⟩]

/-- `current` are the flakes that an upsert or a graph sync replaces. -/
def stageWithGraphDelta (txn : Txn Template) (cursor : Option (List (Batch Var Binding)))
    (current : Except ε (List Fact)) : Except ε (List (Fact × Bool)) := do
  let pureDelete := txn.insertTemplates.isEmpty && txn.txnType != .upsert
  let (acc, _) ← (whereBatches cursor).foldlM (streamBatch m txn pureDelete)
    (if pureDelete then .pureRetract [] else .mixed (txn.syncGraph || txn.txnType == .upsert) ∅, 0)
  if txn.syncGraph || txn.txnType == .upsert then
    let retractions ← current
    .ok (acc.pushRetractions retractions).finalize
  else .ok acc.finalize

end Fluree.Transact

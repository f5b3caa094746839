import Fluree.Lib.SortedMap
import Fluree.Novelty.FactState
import Fluree.Lib.Slices

/-!
# Novelty of a ledger

The flakes of commits that are not indexed, by graph number and in segments, one per commit and
graph. A commit's flakes are routed by the graph they name; a fact that is asserted already is not
asserted again.
-/

namespace Fluree

open Lib

inductive NoveltyError where
  | overflow (msg : String)
  | invalidGraph (msg : String)

/-- A subject id as text. -/
def Sid.display (s : Sid) : String :=
  let code := s.namespaceCode
  let name := s.name
  s!"[{code}:{name}]"

def MAX_SEGMENT_FLAKES : ℕ := 2 ^ 24

def MAX_SEGMENTS : ℕ := 2 ^ 24

structure Novelty where
  /-- The segments of each graph. -/
  graphs : ℕ → List (List Flake)
  factState : NoveltyFactState
  t : ℤ

namespace Novelty

variable (n : Novelty)

def flakes (g : ℕ) : List Flake := (n.graphs g).flatten

def resolveFlakeGId (flake : Flake) (reverseGraph : KeyedMap Sid ℕ) : Except NoveltyError ℕ :=
  match flake.g with
  | none => .ok 0
  | some gSid =>
    match reverseGraph.lookup gSid with
    | some gId => .ok gId
    | none => .error (.invalidGraph ("flake references unknown graph Sid: " ++ gSid.display))

def routeFlake (reverseGraph : KeyedMap Sid ℕ) (flake : Flake) : Except NoveltyError (Flake × ℕ) :=
  (resolveFlakeGId flake reverseGraph).map (flake, ·)

def checkSegmentCapacity (gId : ℕ) : Except NoveltyError Unit :=
  if (n.graphs gId).length + 1 > MAX_SEGMENTS then
    .error (.overflow "novelty segment count exceeds capacity, trigger reindex")
  else .ok ()

/-- A repeated assert is left out. -/
def keeps (routed : Flake × ℕ) : Bool := !(routed.1.op && n.factState.isAsserted routed.2 routed.1)

def batchOf (routed : List (Flake × ℕ)) (g : ℕ) : List Flake :=
  (routed.filter fun e => e.2 = g).map Prod.fst

def pushSegment (segments : List (List Flake)) (batch : List Flake) : List (List Flake) :=
  if batch.isEmpty then segments else segments ++ [batch]

/-- Graphs are resolved and capacities checked before anything changes. -/
def applyCommit (flakes : List Flake) (commitT : ℤ) (reverseGraph : KeyedMap Sid ℕ) :
    Except NoveltyError Novelty :=
  if flakes.isEmpty then .ok n
  else if flakes.length > MAX_SEGMENT_FLAKES then
    .error (.overflow "commit batch exceeds max segment flakes, trigger reindex")
  else do
    let routed ← flakes.mapM (routeFlake reverseGraph)
    let _ ← routed.mapM fun e => n.checkSegmentCapacity e.2
    let kept := routed.filter n.keeps
    .ok {
      graphs := fun g => pushSegment (n.graphs g) (batchOf kept g)
      factState := kept.foldl (fun st e => st.record e.2 e.1) n.factState
      t := max n.t commitT }

end Novelty

/-! ## Current facts -/

/-- The same fact within a graph, by the equality of its parts. -/
def sameFact (a b : Flake) : Bool :=
  decide (a.s = b.s) && decide (a.p = b.p) && a.o.eq b.o && decide (a.dt = b.dt) && decide (a.m = b.m)

/-- The newest operation wins, and at equal `t` the retraction. -/
def beats (f cur : Flake) : Bool := decide (f.t > cur.t) || (f.t == cur.t && !f.op && cur.op)

/-- One more operation. -/
def winnerStep (f : Flake) (w : Option (ℕ × Flake)) (e : Flake × ℕ) : Option (ℕ × Flake) :=
  if sameFact e.1 f then
    match w with
    | none => some (e.2, e.1)
    | some cur => if beats e.1 cur.2 then some (e.2, e.1) else some cur
  else w

/-- The operation that decides the fact of `f`, with its position. -/
def winner (f : Flake) (flakes : List Flake) : Option (ℕ × Flake) :=
  flakes.zipIdx.foldl (winnerStep f) none

/-- Keep the winning operation of each fact, if it asserts it. -/
def removeStaleFlakes (flakes : List Flake) : List Flake :=
  flakes.zipIdx.filterMap fun e =>
    if winner e.1 flakes = some (e.2, e.1) ∧ e.1.op then some e.1 else none

/-- The facts that a bag of operations leaves asserted, in the order of an index. -/
def resolveCurrentFlakes (flakes : List Flake) (index : IndexType) : List Flake :=
  removeStaleFlakes (insertionSortBy index.compare flakes)

end Fluree

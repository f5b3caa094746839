import Fluree.Lib.Worklist
import Mathlib.Algebra.Order.Ring.Int

/-!
# Walks over the commit graph

The walks of a ledger's commit history that other parts of the system rest on: the common ancestor
of two heads, on which merges and rebases are built, and the pages of commits that a transfer
sends to a receiver at a known head.

A commit is read through its envelope. The walks compare commits by `t`, the transaction time on
the branch that wrote them, and follow `parents`; the first parent is the commit on the same
branch, the others were merged in.
-/

namespace Fluree.Chain

open Lib (Halt Turn loop)

/-- The fields of a commit's envelope that the walks read. -/
structure Envelope (Cid : Type) where
  t : ℤ
  parents : List Cid
deriving DecidableEq

def i64Max : ℤ := 2 ^ 63 - 1

inductive CommitError (Cid : Type) where
  | notFound (cid : Cid)
  | noCommonAncestor
  | notDecreasing (cid : Cid) (t childT : ℤ)
deriving DecidableEq

/-- A content store holds the envelope of a commit or does not hold the commit. -/
abbrev ContentStore (Cid : Type) := Cid → Option (Envelope Cid)

/-- Steps over a store that may fail or need more fuel. -/
abbrev Walk (Cid α : Type) := Except (Halt (CommitError Cid)) α

variable {Cid : Type}

def loadCommitEnvelopeById (store : ContentStore Cid) (cid : Cid) : Walk Cid (Envelope Cid) :=
  match store cid with
  | some envelope => .ok envelope
  | none => .error (.failed (.notFound cid))

variable [DecidableEq Cid] (store : ContentStore Cid)

/-! ## Common ancestor -/

structure CommonAncestor (Cid : Type) where
  commitId : Cid
  t : ℤ
deriving DecidableEq

/-- One of the two searches: the commits it has visited and those it has still to expand. -/
structure Side (Cid : Type) where
  visited : List Cid
  frontier : List (ℤ × Cid)

/-- Position and key of the highest entry, the last one among equals (`Iterator::max_by_key`). -/
def maxByKey {α : Type} : List (ℤ × α) → Option (ℕ × ℤ)
  | [] => none
  | (t, _) :: rest =>
    match maxByKey rest with
    | none => some (0, t)
    | some (i, m) => if t ≤ m then some (i + 1, m) else some (0, t)

/-- `Vec::swap_remove`: the last entry takes the place of the one removed. -/
def swapRemove {α : Type} (l : List α) (i : ℕ) : Option (α × List α) :=
  match l[i]?, l.getLast? with
  | some x, some last => some (x, (l.set i last).dropLast)
  | _, _ => none

/-- Take the highest entry out of a frontier. -/
def popHighest {α : Type} (frontier : List (ℤ × α)) : Option ((ℤ × α) × List (ℤ × α)) :=
  match maxByKey frontier with
  | none => none
  | some (i, _) => swapRemove frontier i

/-- Visit the parents of a commit in order; stop at the first new one that the other side has
visited. -/
def visitParents (store : ContentStore Cid) (otherVisited : List Cid) :
    List Cid → Side Cid → Walk Cid (Turn (Side Cid) (CommonAncestor Cid))
  | [], side => .ok (.again side)
  | parentId :: rest, side =>
    if parentId ∈ side.visited then visitParents store otherVisited rest side
    else do
      let parentEnv ← loadCommitEnvelopeById store parentId
      if parentId ∈ otherVisited then .ok (.leave ⟨parentId, parentEnv.t⟩)
      else
        visitParents store otherVisited rest
          ⟨side.visited ++ [parentId], side.frontier ++ [(parentEnv.t, parentId)]⟩

def advanceFrontier (side : Side Cid) (otherVisited : List Cid) :
    Walk Cid (Turn (Side Cid) (CommonAncestor Cid)) :=
  match popHighest side.frontier with
  | none => .ok (.again side)
  | some ((_, cid), frontier) => do
    let envelope ← loadCommitEnvelopeById store cid
    visitParents store otherVisited envelope.parents ⟨side.visited, frontier⟩

def advanceA (a b : Side Cid) :
    Walk Cid (Turn (Side Cid × Side Cid) (CommonAncestor Cid)) :=
  Turn.map (·, b) <$> advanceFrontier store a b.visited

def advanceB (a b : Side Cid) :
    Walk Cid (Turn (Side Cid × Side Cid) (CommonAncestor Cid)) :=
  Turn.map (a, ·) <$> advanceFrontier store b a.visited

def maxT (frontier : List (ℤ × Cid)) : Option ℤ := (maxByKey frontier).map (·.2)

/-- One turn of the search: the side with the higher frontier is advanced. -/
def searchTurn (s : Side Cid × Side Cid) :
    Walk Cid (Turn (Side Cid × Side Cid) (CommonAncestor Cid)) :=
  match maxT s.1.frontier, maxT s.2.frontier with
  | none, none => .error (.failed .noCommonAncestor)
  | some ta, some tb => if tb ≤ ta then advanceA store s.1 s.2 else advanceB store s.1 s.2
  -- the frontier of one side is empty, whichever it is
  | _, _ => advanceB store s.1 s.2

def findCommonAncestor (headA headB : Cid) (fuel : ℕ) :
    Walk Cid (CommonAncestor Cid) := do
  let envA ← loadCommitEnvelopeById store headA
  if headA = headB then .ok ⟨headA, envA.t⟩
  else
    let envB ← loadCommitEnvelopeById store headB
    -- the two visited sets hold one head each, so they overlap for equal heads only
    loop (fun _ => searchTurn store) fuel
      (⟨[headA], [(envA.t, headA)]⟩, ⟨[headB], [(envB.t, headB)]⟩)

/-! ## The walk over all parents -/

/-- The commits found, those still to look at (the one pushed last comes first), and those seen. -/
structure DagWalk (Cid : Type) where
  result : List (ℤ × Cid)
  frontier : List Cid
  visited : List Cid

def dagTurn (stopAtT : ℤ) (w : DagWalk Cid) :
    Walk Cid (Turn (DagWalk Cid) (List (ℤ × Cid))) :=
  match w.frontier with
  | [] => .ok (.leave w.result)
  | cid :: rest =>
    if cid ∈ w.visited then .ok (.again ⟨w.result, rest, w.visited⟩)
    else do
      let envelope ← loadCommitEnvelopeById store cid
      if envelope.t ≤ stopAtT then .ok (.again ⟨w.result, rest, cid :: w.visited⟩)
      else
        .ok (.again ⟨w.result ++ [(envelope.t, cid)], envelope.parents.reverse ++ rest,
          cid :: w.visited⟩)

def walkDag (headId : Cid) (stopAtT : ℤ) (fuel : ℕ) :
    Walk Cid (List (ℤ × Cid)) :=
  loop (fun _ => dagTurn store stopAtT) fuel ⟨[], [headId], []⟩

/-- The commits that a head reaches without passing one at or below the stop, highest first. -/
def collectDagCids (headId : Cid) (stopAtT : ℤ) (fuel : ℕ) :
    Walk Cid (List (ℤ × Cid)) := do
  let result ← walkDag store headId stopAtT fuel
  .ok (result.insertionSort fun a b => b.1 ≤ a.1)

/-! ## Transfer planning -/

structure CommitTransferPlan (Cid : Type) where
  lineage : List Cid
  merged : List Cid

structure CommitTransferPage (Cid : Type) where
  plan : CommitTransferPlan Cid
  next : Option Cid

/-- The commits reachable from the base, found as far as queries needed them. The head of
`frontier` is the entry pushed last. -/
structure Held (Cid : Type) where
  members : List Cid
  frontier : List Cid

def Held.new (base : Option Cid) : Held Cid := ⟨[], base.toList⟩

def Held.searchTurn (cid : Cid) (held : Held Cid) :
    Walk Cid (Turn (Held Cid) (Bool × Held Cid)) :=
  match held.frontier with
  | [] => .ok (.leave (false, held))
  | next :: rest =>
    if next ∈ held.members then .ok (.again ⟨held.members, rest⟩)
    else do
      let envelope ← loadCommitEnvelopeById store next
      let held' : Held Cid := ⟨next :: held.members, envelope.parents.reverse ++ rest⟩
      if next = cid then .ok (.leave (true, held')) else .ok (.again held')

/-- Whether the base reaches `cid`. -/
def Held.contains (cid : Cid) (fuel : ℕ) (held : Held Cid) :
    Walk Cid (Bool × Held Cid) :=
  if cid ∈ held.members then .ok (true, held)
  else loop (fun _ => Held.searchTurn store cid) fuel held

/-- A first-parent line, loaded as deep as queries needed it. -/
structure FirstParentLine (Cid : Type) where
  members : List Cid
  next : Option Cid
  lowestT : ℤ

def FirstParentLine.loadTurn (cid : Cid) (t : ℤ)
    (line : FirstParentLine Cid) :
    Walk Cid (Turn (FirstParentLine Cid) (Bool × FirstParentLine Cid)) :=
  if t < line.lowestT then
    match line.next with
    | none => .ok (.leave (decide (cid ∈ line.members), line))
    | some next => do
      let envelope ← loadCommitEnvelopeById store next
      .ok (.again ⟨next :: line.members, envelope.parents.head?, envelope.t⟩)
  else .ok (.leave (decide (cid ∈ line.members), line))

/-- Whether `cid`, whose time is `t`, is on the line. -/
def FirstParentLine.contains (cid : Cid) (t : ℤ) (fuel : ℕ)
    (line : FirstParentLine Cid) : Walk Cid (Bool × FirstParentLine Cid) :=
  loop (fun _ => FirstParentLine.loadTurn store cid t) fuel line

/-- What the walk of a page knows beside its position on the line. -/
structure Found (Cid : Type) where
  merged : List Cid
  seen : List Cid
  line : FirstParentLine Cid
  held : Held Cid

/-- Look at a commit that is new to the walk over merged-in commits: one that the receiver holds or
that is on the line is passed over, any other has its parents pushed above it. -/
def lookAt (fuel : ℕ) (stack : List (Cid × Bool)) (found : Found Cid)
    (cid : Cid) : Walk Cid (Turn (List (Cid × Bool) × Found Cid) (Found Cid)) := do
  let (isHeld, held) ← found.held.contains store cid fuel
  let found := { found with seen := cid :: found.seen, held := held }
  if isHeld then .ok (.again (stack, found))
  else
    let envelope ← loadCommitEnvelopeById store cid
    let (onLine, line) ← found.line.contains store cid envelope.t fuel
    let found := { found with line := line }
    if onLine then .ok (.again (stack, found))
    else .ok (.again (envelope.parents.reverse.map (·, false) ++ (cid, true) :: stack, found))

/-- One turn of the walk over what a merge brought in. The head of the stack is the entry pushed
last; an entry marked `true` has had its parents pushed above it. -/
def mergedTurn (fuel : ℕ) (s : List (Cid × Bool) × Found Cid) :
    Walk Cid (Turn (List (Cid × Bool) × Found Cid) (Found Cid)) :=
  match s with
  | ([], found) => .ok (.leave found)
  | ((cid, true) :: stack, found) =>
    .ok (.again (stack, { found with merged := found.merged ++ [cid] }))
  | ((cid, false) :: stack, found) =>
    if cid ∈ found.line.members ∨ cid ∈ found.seen then .ok (.again (stack, found))
    else lookAt store fuel stack found cid

/-- The walk of a page: the line commits taken so far, newest first, and where it stands. -/
structure PageWalk (Cid : Type) where
  lineage : List Cid
  next : Option Cid
  childT : Option ℤ
  found : Found Cid

/-- The page that ends above `below`. -/
def PageWalk.page (walk : PageWalk Cid) (base : Option (Cid × ℤ)) (below : Option Cid)
    (full : Bool) : CommitTransferPage Cid where
  plan := ⟨walk.lineage.reverse, walk.found.merged⟩
  next := below.filter fun cid => full && decide (∀ b ∈ base, cid ≠ b.1)

/-- A commit taken into the line. The lazily loaded line may already be below it. -/
def FirstParentLine.take (line : FirstParentLine Cid) (cid : Cid) (envelope : Envelope Cid) :
    FirstParentLine Cid :=
  if envelope.t < line.lowestT then ⟨cid :: line.members, envelope.parents.head?, envelope.t⟩
  else ⟨cid :: line.members, line.next, line.lowestT⟩

variable (base : Option (Cid × ℤ))

/-- A line commit above the base: take it, and what its merges brought in. -/
def takeLineCommit (fuel : ℕ)
    (walk : PageWalk Cid) (cid : Cid) (envelope : Envelope Cid) :
    Walk Cid (Turn (PageWalk Cid) (Option (CommitTransferPage Cid))) := do
  let found := { walk.found with line := walk.found.line.take cid envelope }
  let found ← loop (mergedTurn store) fuel (envelope.parents.tail.map (·, false), found)
  -- the line reached genesis without meeting the base
  if envelope.parents.head? = none ∧ base ≠ none then .ok (.leave none)
  else
    .ok (.again
      { lineage := walk.lineage ++ [cid], next := envelope.parents.head?,
        childT := some envelope.t, found := found })

def visitLineCommit (fuel : ℕ)
    (walk : PageWalk Cid) (cid : Cid) (envelope : Envelope Cid) :
    Walk Cid (Turn (PageWalk Cid) (Option (CommitTransferPage Cid))) :=
  match base.filter fun b => decide (envelope.t ≤ b.2) with
  | some b => .ok (.leave (if cid = b.1 then some (walk.page base (some cid) false) else none))
  | none =>
    match walk.childT.filter fun childT => decide (childT ≤ envelope.t) with
    | some childT => .error (.failed (.notDecreasing cid envelope.t childT))
    | none => takeLineCommit store base fuel walk cid envelope

def pageTurn (limit fuel : ℕ)
    (walk : PageWalk Cid) : Walk Cid (Turn (PageWalk Cid) (Option (CommitTransferPage Cid))) :=
  match walk.next with
  | none => .ok (.leave (some (walk.page base none false)))
  | some cid =>
    if walk.lineage ≠ [] ∧ limit ≤ walk.lineage.length + walk.found.merged.length then
      .ok (.leave (some (walk.page base (some cid) true)))
    else do
      let envelope ← loadCommitEnvelopeById store cid
      visitLineCommit store base fuel walk cid envelope

def walkPage (from_ : Cid) (base : Option (Cid × ℤ)) (limit fuel : ℕ) :
    Walk Cid (Option (CommitTransferPage Cid)) :=
  loop (pageTurn store base limit) fuel
    { lineage := [], next := some from_, childT := none
      found := { merged := [], seen := [], line := ⟨[], some from_, i64Max⟩
                 held := Held.new (base.map (·.1)) } }

def planCommitTransferPage (from_ : Cid) (base : Option Cid)
    (limit fuel : ℕ) : Walk Cid (Option (CommitTransferPage Cid)) :=
  match base with
  | none => walkPage store from_ none limit fuel
  | some base =>
    if base = from_ then .ok (some ⟨⟨[], []⟩, none⟩)
    else if store base = none then .ok none
    else do
      let envelope ← loadCommitEnvelopeById store base
      walkPage store from_ (some (base, envelope.t)) limit fuel

/-- What the answer to a page request leads to, with the pages so far. -/
def followed (pages : List (CommitTransferPage Cid)) : Option (CommitTransferPage Cid) →
    Turn (Cid × List (CommitTransferPage Cid)) (Option (List (CommitTransferPage Cid)))
  | none => .leave none
  | some page =>
    match page.next with
    | none => .leave (some (pages ++ [page]))
    | some next => .again (next, pages ++ [page])

/-- One page after the other: the state is where the next page starts and the pages so far. -/
def followTurn (base : Option Cid) (limits : ℕ → ℕ) (fuel : ℕ)
    (s : Cid × List (CommitTransferPage Cid)) :
    Walk Cid (Turn (Cid × List (CommitTransferPage Cid)) (Option (List (CommitTransferPage Cid)))) := do
  let page ← planCommitTransferPage store s.1 base (limits s.2.length) fuel
  .ok (followed s.2 page)

/-- Follow the cursors of the pages from `head`; the limit may change from page to page. -/
def followPages (head : Cid) (base : Option Cid) (limits : ℕ → ℕ)
    (fuel : ℕ) : Walk Cid (Option (List (CommitTransferPage Cid))) :=
  loop (followTurn store base limits) fuel (head, [])

end Fluree.Chain

import Fluree.Core.Flake
import Fluree.Lib.Slices
import Fluree.Lib.Worklist
import Fluree.Lib.SortedMap

/-!
# The class and property hierarchy of a query

`schemaHierarchyWithOverlay` merges the parents that the last index recorded with those that a
read of the default graph at the time of the query returns; `fromDbRootSchema` inverts the
merged edges and closes them under chains. A range read is a parameter of the snapshot.
-/

namespace Fluree

open Lib

inductive ReasonerError where
  | failed (message : String)
  /-- An assertion of the source does not hold. -/
  | panicked (message : String)

/-- What an index records of a class or property: its parents, and its child properties. -/
structure SchemaPredicateInfo where
  id : Sid
  subclassOf : List Sid
  parentProps : List Sid
  childProps : List Sid

structure IndexSchema where
  t : ℤ
  vals : List SchemaPredicateInfo

/-- Terms under a term: direct ones, or all of them. -/
abbrev Descendants := KeyedMap Sid (List Sid)

def Descendants.get (m : Descendants) (c : Sid) : List Sid := (m.lookup c).getD []

structure SchemaHierarchy where
  directSubclassOf : Descendants
  directSubpropertyOf : Descendants
  subclassesClosure : Descendants
  subpropertiesClosure : Descendants
  epoch : ℕ

/-- Each term is queued once, so that the edges, and one turn for the start, are fuel enough. -/
def computeDescendants (direct : Descendants) (start : Sid) : List Sid :=
  descend direct.get start ((direct.entries.flatMap (·.2)).length + 1) [start] []

def computeTransitiveClosure (direct : Descendants) : Descendants :=
  let starts := direct.keys.filter (computeDescendants direct · ≠ [])
  KeyedMap.ofList id (computeDescendants direct) starts ∅

namespace SchemaHierarchy

/-- The recorded parents, inverted. -/
def direct (parents : SchemaPredicateInfo → List Sid) (schema : IndexSchema) : Descendants :=
  KeyedMap.group (schema.vals.flatMap fun info => (parents info).map (·, info.id)) ∅

def fromDbRootSchema (schema : IndexSchema) : SchemaHierarchy where
  directSubclassOf := direct (·.subclassOf) schema
  directSubpropertyOf := direct (·.parentProps) schema
  subclassesClosure := computeTransitiveClosure (direct (·.subclassOf) schema)
  subpropertiesClosure := computeTransitiveClosure (direct (·.parentProps) schema)
  epoch := (schema.t % 2 ^ 64).toNat

def subclassesOf (h : SchemaHierarchy) : Sid → List Sid := h.subclassesClosure.get

def subpropertiesOf (h : SchemaHierarchy) : Sid → List Sid := h.subpropertiesClosure.get

end SchemaHierarchy

/-- `range overlay gId toT index p` reads the flakes of a predicate. -/
structure SchemaSnapshot (ο : Type) where
  schema : Option IndexSchema
  range : ο → ℕ → ℤ → IndexType → Sid → Except ReasonerError (List Flake)

/-- Each child with a parent that a flake asserts. -/
def assertedParent (flake : Flake) : Option (Sid × Sid) :=
  match flake.op, flake.o with
  | true, .ref parent => some (flake.s, parent)
  | _, _ => none

/-- One list of an entry. -/
inductive SchemaField where
  | subclassOf
  | parentProps
  | childProps
  deriving DecidableEq

def SchemaField.get : SchemaField → SchemaPredicateInfo → List Sid
  | subclassOf => (·.subclassOf)
  | parentProps => (·.parentProps)
  | childProps => (·.childProps)

/-- `push`, `sort` and `dedup`. -/
def pushSorted (l : List Sid) (x : Sid) : List Sid := (insertionSortBy Sid.cmp (l ++ [x])).dedup

def SchemaField.push (info : SchemaPredicateInfo) (x : Sid) : SchemaField → SchemaPredicateInfo
  | subclassOf => { info with subclassOf := pushSorted info.subclassOf x }
  | parentProps => { info with parentProps := pushSorted info.parentProps x }
  | childProps => { info with childProps := pushSorted info.childProps x }

/-- A term to put into a list of the entry of another. -/
structure SchemaUpdate where
  id : Sid
  field : SchemaField
  term : Sid

def SchemaUpdate.apply (byId : List SchemaPredicateInfo) (u : SchemaUpdate) :
    List SchemaPredicateInfo :=
  -- a term without an entry gets an empty one
  let byId := if byId.any (·.id = u.id) then byId else byId ++ [⟨u.id, [], [], []⟩]
  byId.map fun info => if info.id = u.id then u.field.push info u.term else info

def subclassUpdates (e : Sid × Sid) : List SchemaUpdate := [⟨e.1, .subclassOf, e.2⟩]

/-- The parent of a property, and the property as a child of its parent. -/
def subpropertyUpdates (e : Sid × Sid) : List SchemaUpdate :=
  [⟨e.1, .parentProps, e.2⟩, ⟨e.2, .childProps, e.1⟩]

def rdfsSubClassOf : Sid := ⟨4, "subClassOf"⟩

def rdfsSubPropertyOf : Sid := ⟨4, "subPropertyOf"⟩

/-- The entries of an index, one a term, with the asserted edges merged in. The lists of an
entry are sorted and free of repeats after each edge, so the edges need no grouping by child. -/
def mergeSchema (schema : IndexSchema) (classes properties : List Flake) :
    List SchemaPredicateInfo :=
  let updates := (classes.filterMap assertedParent).flatMap subclassUpdates ++
    (properties.filterMap assertedParent).flatMap subpropertyUpdates
  insertionSortBy (fun a b => a.id.cmp b.id) (updates.foldl SchemaUpdate.apply schema.vals)

def schemaHierarchyWithOverlay {ο : Type} (snapshot : SchemaSnapshot ο) (overlay : ο) (toT : ℤ) :
    Except ReasonerError (Option SchemaHierarchy) := do
  -- the default graph at the time of the query
  let range := snapshot.range overlay 0 toT .psot
  let classes ← range rdfsSubClassOf
  let properties ← range rdfsSubPropertyOf
  let vals := mergeSchema (snapshot.schema.getD ⟨0, []⟩) classes properties
  return if vals.isEmpty then none else some (.fromDbRootSchema ⟨toT, vals⟩)

end Fluree

import Fluree.Format.Leaf

/-!
# Branch manifests and content-addressed leaves

A branch manifest lists the leaves of one graph and order with their key ranges, and is what a
range scan is routed by. Leaves and sidecars are stored under the hash of their bytes.
-/

namespace Fluree

open Lib

structure LeafEntry (κ : Type) where
  firstKey : RunRecordV2
  lastKey : RunRecordV2
  rowCount : ℕ
  leafCid : κ
  sidecarCid : Option κ

structure BranchManifest (κ : Type) where
  leaves : List (LeafEntry κ)

/-! ## Content addressing -/

/-- The content identifiers of leaves and sidecars: hashes without collisions. -/
structure ContentAddressing (κ : Type) where
  computeCidLeaf : LeafBlob → κ
  computeCidSidecar : List UInt8 → κ
  /-- The text form of an identifier. -/
  display : κ → String
  leaf_injective : Function.Injective computeCidLeaf
  sidecar_injective : Function.Injective computeCidSidecar

/-!
## The bytes of a branch manifest

The FBR3 layout: a header of 16 bytes, then for each leaf its two keys, its row count and the
identifiers of the leaf and of its sidecar.
-/

variable {κ : Type}

def RunSortOrder.toWireId : RunSortOrder → UInt8
  | .spot => 0
  | .psot => 1
  | .post => 2
  | .opst => 3

def RunRecordV2.writeRunLe (r : RunRecordV2) : List UInt8 :=
  leBytes 8 r.sId.toNat ++ leBytes 8 r.oKey.toNat ++ leBytes 4 r.pId.toNat ++ leBytes 4 r.t.toNat ++
    leBytes 4 r.oI.toNat ++ leBytes 2 r.oType.toNat

/-- `FBR3`. -/
def BRANCH_V3_MAGIC : List UInt8 := [0x46, 0x42, 0x52, 0x33]

def BRANCH_V3_VERSION : UInt8 := 1

/-- The bytes of one leaf entry; `toBytes` are the bytes of an identifier. -/
def leafEntryBytes (toBytes : κ → List UInt8) (leaf : LeafEntry κ) : List UInt8 :=
  let cidBytes := toBytes leaf.leafCid
  leaf.firstKey.writeRunLe ++ leaf.lastKey.writeRunLe ++ leBytes 8 leaf.rowCount ++
    leBytes 2 cidBytes.length ++ cidBytes ++
    match leaf.sidecarCid with
    | some sc => 1 :: (leBytes 2 (toBytes sc).length ++ toBytes sc)
    | none => [0]

def buildBranchBytes (toBytes : κ → List UInt8) (order : RunSortOrder) (gId : UInt16)
    (leaves : List (LeafEntry κ)) : List UInt8 :=
  BRANCH_V3_MAGIC ++ [BRANCH_V3_VERSION, order.toWireId] ++ leBytes 2 gId.toNat ++
    leBytes 4 leaves.length ++ leBytes 4 0 ++ leaves.flatMap (leafEntryBytes toBytes)

end Fluree

import Fluree.Core.Value
import Fluree.Lib.SortedMap

/-!
# Commits

The record of one transaction: its flakes and what is recorded beside them. Content ids and
flakes are parameters, so the same record serves the codec (which keeps the lexical forms of
values) and the ledger (which compares values).
-/

namespace Fluree

open Lib (SortedMap)

instance uint16Order : LinearOrder UInt16 where
  le_refl := UInt16.le_refl
  le_trans := fun _ _ _ => UInt16.le_trans
  le_antisymm := fun _ _ => UInt16.le_antisymm
  le_total := UInt16.le_total
  lt_iff_le_not_ge := fun _ _ => Std.LawfulOrderLT.lt_iff _ _
  toDecidableLE := inferInstance
  toDecidableEq := inferInstance
  toDecidableLT := inferInstance

/-- Who submitted the transaction. -/
structure TxnSignature where
  signer : String
  txnId : Option String

def MAX_TXN_META_ENTRIES : ℕ := 256

inductive TxnMetaValue where
  | string (s : String)
  | typedLiteral (value : String) (dtNs : UInt16) (dtName : String)
  | langString (value lang : String)
  | ref (ns : UInt16) (name : String)
  | long (n : Int64)
  | double (x : F64)
  | boolean (b : Bool)

/-- A predicate and an object; the subject is the commit. -/
structure TxnMetaEntry where
  predicateNs : UInt16
  predicateName : String
  value : TxnMetaValue

/-- How a ledger cuts IRIs into namespace and name. -/
inductive NsSplitMode where
  | mostGranular
  | hostPlusN (n : UInt8)
  deriving DecidableEq

namespace NsSplitMode

def HOST_PLUS_N_MAX : UInt8 := 254

/-- `none` is the overflow error. -/
def toByte : NsSplitMode → Option UInt8
  | mostGranular => some 0
  | hostPlusN n => if n > HOST_PLUS_N_MAX then none else some (n + 1)

def fromByte (b : UInt8) : NsSplitMode := if b = 0 then mostGranular else hostPlusN (b - 1)

lemma fromByte_of_toByte {m : NsSplitMode} {b : UInt8} (h : m.toByte = some b) :
    fromByte b = m := by
  cases m with
  | mostGranular =>
    obtain rfl : (0 : UInt8) = b := Option.some.inj h
    rfl
  | hostPlusN n =>
    simp only [toByte] at h
    split at h
    · cases h
    rename_i hn
    obtain rfl : n + 1 = b := Option.some.inj h
    have hle : n.toNat ≤ 254 := UInt8.le_iff_toNat_le.1 (UInt8.not_lt.1 hn)
    have hne : n + 1 ≠ 0 := by
      intro h0
      have h1 := congrArg UInt8.toNat h0
      rw [UInt8.toNat_add] at h1
      simp at h1
      omega
    rw [fromByte, if_neg hne, UInt8.add_sub_cancel]

end NsSplitMode

/-- Proof of which node wrote the commit. -/
structure CommitSignature where
  signer : String
  algo : UInt8
  /-- 64 bytes. -/
  signature : { bs : List UInt8 // bs.length = 64 }
  metadata : Option (List UInt8)

/-- A commit over a type of content ids and a type of flakes. -/
structure Commit (Cid φ : Type) where
  id : Option Cid
  t : ℤ
  time : Option String
  flakes : List φ
  parents : List Cid
  txn : Option Cid
  namespaceDelta : SortedMap UInt16 String
  txnSignature : Option TxnSignature
  commitSignatures : List CommitSignature
  txnMeta : List TxnMetaEntry
  graphDelta : SortedMap UInt16 String
  nsSplitMode : Option NsSplitMode

/-- What is recorded beside the flakes. -/
structure CommitEnvelope (Cid : Type) where
  t : ℤ
  parents : List Cid
  txn : Option Cid
  namespaceDelta : SortedMap UInt16 String
  txnMeta : List TxnMetaEntry
  graphDelta : SortedMap UInt16 String
  nsSplitMode : Option NsSplitMode

end Fluree

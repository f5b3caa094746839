import Fluree.Indexer.Window

/-!
# One order per index

Routing keys compare as bytes, the merge, the cursor and the branch compare column by column, each
with its own copy of the column order. All of them follow `cmpV2ForOrder`.
-/

namespace Fluree

open Lib List RunRecordV2

variable (order : RunSortOrder) (a b : RunRecordV2)

/-- **Ordered keys embed the comparators**, and every comparison of an index is the same one. -/
theorem ordered_keys_embed :
    cmpOrderedKeyV2 (writeOrderedKeyV2 order a) (writeOrderedKeyV2 order b) =
        cmpV2ForOrder order a b ∧
      (readOrderedKeyV2 order (writeOrderedKeyV2 order a)).factKey = a.factKey ∧
      (∀ ov : OverlayOp, ov.factKey = a.factKey →
        cmpOverlayVsRecord ov b order = cmpV2ForOrder order a b) ∧
      (∀ ov : OverlayOp, ov.factKey = b.factKey →
        cmpRowVsOverlay a.sId a.pId a.oType a.oKey a.oI ov order = cmpV2ForOrder order a b) ∧
      ∀ (batch : ColumnBatch) (row : ℕ), batch.sId.get row = some a.sId →
        batch.pId.get row = some a.pId → batch.oType.get row = some a.oType →
        batch.oKey.get row = some a.oKey → batch.oI.getOr row LIST_INDEX_NONE = some a.oI →
        cmpBatchRowVsRecord batch row b order = some (cmpV2ForOrder order a b) := by
  refine ⟨?_, ?_, ?_, ?_, ?_⟩
  · rw [cmpV2ForOrder_eq_compare]
    exact memcmp_eq_compare
      ((orderedKeyBytes_length order _).trans (orderedKeyBytes_length order _).symm)
  · -- what is cut out of a key in front of a column is empty
    cases order <;>
      simp [readOrderedKeyV2, writeOrderedKeyV2, OrderedKey.field, orderedKeyBytes, factKey, take_append,
        drop_append, drop_eq_nil_of_le, take_of_length_le, beNat_u64, beNat_u32, beNat_u16]
  · intro ov hov
    rw [cmpV2ForOrder, ← hov]
    cases order <;> rfl
  · intro ov hov
    rw [cmpV2ForOrder, ← hov]
    cases order <;> rfl
  · intro batch row hs hp htype hkey hi
    simp only [cmpBatchRowVsRecord, hs, hp, htype, hkey, hi]
    cases order <;> rfl

end Fluree

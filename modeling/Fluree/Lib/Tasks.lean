import Mathlib.Data.List.Perm.Basic
import Mathlib.Data.List.Nodup

/-!
# Tasks that finish in any order

A pool runs independent tasks and writes the result of each into the slot of its position.
`fillSlots` does so in a given completion order; once all tasks are through, the slots hold
the results in the order of the tasks, whatever the completion order was
(`fillSlots_eq_map`).
-/

namespace Fluree.Lib

open List

variable {α β : Type*} (run : α → β) (tasks : List α)

/-- The slots after the tasks at the positions of `order` have finished, in that order. -/
def fillSlots (order : List ℕ) : List (Option β) :=
  order.foldl (fun slots j => slots.set j (tasks[j]?.map run)) (List.replicate tasks.length none)

/-- A completion order for every number of tasks. -/
structure CompletionOrder where
  order : ℕ → List ℕ
  perm : ∀ n, (order n).Perm (List.range n)

lemma getElem?_fill (order : List ℕ) (slots : List (Option β))
    (i : ℕ) :
    (order.foldl (fun slots j => slots.set j (tasks[j]?.map run)) slots)[i]? =
      if i ∈ order ∧ i < slots.length then some (tasks[i]?.map run) else slots[i]? := by
  induction order generalizing slots with
  | nil => simp
  | cons j order ih =>
    rw [foldl_cons, ih, length_set, List.getElem?_set]
    by_cases hj : j = i
    · subst hj
      by_cases hlt : j < slots.length
      · by_cases hmem : j ∈ order <;> simp [hmem, hlt]
      · simp [hlt]
    · have hij : i ≠ j := fun h => hj h.symm
      simp [hj, hij]

/-- **Every completion order leaves the results in the order of the tasks.** -/
lemma fillSlots_eq_map {order : List ℕ} (h : order.Perm (List.range tasks.length)) :
    fillSlots run tasks order = tasks.map (fun t => some (run t)) := by
  apply ext_getElem?
  intro i
  have hmem : i ∈ order ↔ i < tasks.length := by rw [h.mem_iff, mem_range]
  unfold fillSlots
  rw [getElem?_fill, length_replicate, List.getElem?_map]
  by_cases hi : i < tasks.length <;> simp [hmem, hi]

end Fluree.Lib

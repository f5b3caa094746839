import Mathlib.Data.List.Infix
import Mathlib.Data.List.Sort

/-!
# Numbering by first appearance

A numbering is a list without repetitions: the position of an element is its number. Elements are
numbered as they appear; those that have a number keep it.

* `addNew l xs`: number the elements of `xs` in their order.
-/

namespace Fluree.Lib

open List

variable {α : Type} [DecidableEq α]

def addOne (l : List α) (x : α) : List α := if x ∈ l then l else l ++ [x]

def addNew (l xs : List α) : List α := xs.foldl addOne l

/-- The number of an element, and the numbering that has it. -/
def lookupOrAdd (l : List α) (x : α) : ℕ × List α :=
  match l.idxOf? x with
  | some i => (i, l)
  | none => (l.length, l ++ [x])

@[simp] lemma addNew_nil (l : List α) : addNew l [] = l := rfl

lemma addNew_cons (l : List α) (x : α) (xs : List α) :
    addNew l (x :: xs) = addNew (addOne l x) xs := rfl

lemma addNew_append (l xs ys : List α) : addNew l (xs ++ ys) = addNew (addNew l xs) ys :=
  foldl_append

variable {l xs : List α} {x : α}

lemma addOne_of_mem (h : x ∈ l) : addOne l x = l := if_pos h

lemma addOne_of_not_mem (h : x ∉ l) : addOne l x = l ++ [x] := if_neg h

lemma mem_addOne : y ∈ addOne l x ↔ y ∈ l ∨ y = x := by
  rw [addOne]
  split
  · rename_i h
    exact ⟨.inl, fun hy => hy.elim id fun hx => hx ▸ h⟩
  · rw [mem_append, mem_singleton]

lemma nodup_addOne (h : l.Nodup) (x : α) : (addOne l x).Nodup := by
  rw [addOne]
  split
  · exact h
  · rename_i hx
    exact nodup_append'.2 ⟨h, nodup_singleton x, by simpa using hx⟩

lemma prefix_addOne (l : List α) (x : α) : l <+: addOne l x := by
  rw [addOne]
  split
  · exact prefix_rfl
  · exact prefix_append l [x]

lemma mem_addNew : y ∈ addNew l xs ↔ y ∈ l ∨ y ∈ xs := by
  induction xs generalizing l with
  | nil => simp
  | cons _ _ ih => rw [addNew_cons, ih, mem_addOne, mem_cons, or_assoc]

lemma nodup_addNew (h : l.Nodup) (xs : List α) : (addNew l xs).Nodup := by
  induction xs generalizing l with
  | nil => exact h
  | cons x _ ih => exact ih (nodup_addOne h x)

lemma prefix_addNew (l xs : List α) : l <+: addNew l xs := by
  induction xs generalizing l with
  | nil => exact prefix_rfl
  | cons x _ ih => exact (prefix_addOne l x).trans (ih (addOne l x))

lemma addNew_of_subset (h : ∀ x ∈ xs, x ∈ l) : addNew l xs = l := by
  induction xs with
  | nil => rfl
  | cons x _ ih =>
    rw [addNew_cons, addOne_of_mem (h x mem_cons_self)]
    exact ih fun y hy => h y (mem_cons_of_mem x hy)

/-- **Elements may be numbered ahead of time when they come first anyway.** -/
lemma addNew_eq_of_between (hs : s <+: l) (hl : l <+: addNew s xs) :
    addNew l xs = addNew s xs := by
  induction xs generalizing s with
  | nil =>
    obtain rfl : l = s := (hl.eq_of_length (Nat.le_antisymm hl.length_le hs.length_le))
    rfl
  | cons x xs ih =>
    rw [addNew_cons] at hl ⊢
    rw [addNew_cons]
    by_cases hx : x ∈ s
    · rw [addOne_of_mem hx] at hl ⊢
      rw [addOne_of_mem (hs.subset hx)]
      exact ih hs hl
    · rw [addOne_of_not_mem hx] at hl ⊢
      -- the list stops at `s` or goes on with `x`
      rcases prefix_or_prefix_of_prefix hl (prefix_addNew (s ++ [x]) xs) with hle | hle
      · rcases eq_or_ne l (s ++ [x]) with rfl | hne
        · rw [addOne_of_mem (by simp)]
        obtain rfl : l = s := by
          have hlen := hle.length_le
          have hlen' := hs.length_le
          have hlt : l.length ≠ (s ++ [x]).length := fun h => hne (hle.eq_of_length h)
          rw [length_append, length_singleton] at hlen hlt
          exact (hs.eq_of_length (by omega)).symm
        rw [addOne_of_not_mem hx]
      · rw [addOne_of_mem (hle.subset (by simp))]
        exact ih hle hl

lemma exists_addNew_eq (l xs : List α) : ∃ new, addNew l xs = l ++ new ∧ new.Sublist xs := by
  induction xs generalizing l with
  | nil => exact ⟨[], by simp, List.Sublist.refl []⟩
  | cons x _ ih =>
    rw [addNew_cons]
    by_cases hx : x ∈ l
    · rw [addOne_of_mem hx]
      obtain ⟨new, hnew, hsub⟩ := ih l
      exact ⟨new, hnew, hsub.cons x⟩
    · rw [addOne_of_not_mem hx]
      obtain ⟨new, hnew, hsub⟩ := ih (l ++ [x])
      exact ⟨x :: new, by rw [hnew, append_assoc, singleton_append], hsub.cons_cons x⟩

lemma addNew_addNew (hs : ∀ x ∈ s, x ∈ l) (xs : List α) : addNew l (addNew s xs) = addNew l xs := by
  induction xs using List.reverseRecOn with
  | nil => exact addNew_of_subset hs
  | append_singleton xs x ih =>
    rw [addNew_append s, addNew_append l xs, ← ih, addNew_cons, addNew_nil, addNew_cons, addNew_nil]
    by_cases hx : x ∈ addNew s xs
    · rw [addOne_of_mem hx, addOne_of_mem (mem_addNew.2 (.inr hx))]
    · rw [addOne_of_not_mem hx, addNew_append]
      rfl

lemma addNew_append_self (h : (l ++ new).Nodup) : addNew l new = l ++ new := by
  induction new using List.reverseRecOn with
  | nil => simp
  | append_singleton new x ih =>
    rw [← append_assoc] at h ⊢
    have hx : x ∉ l ++ new := fun hx => (nodup_append'.1 h).2.2 hx (mem_singleton.2 rfl)
    rw [addNew_append, ih (nodup_append'.1 h).1, addNew_cons, addNew_nil, addOne_of_not_mem hx]

lemma addNew_append_left (s t xs : List α) :
    addNew (s ++ t) xs = s ++ addNew t (xs.filter (· ∉ s)) := by
  induction xs generalizing t with
  | nil => rfl
  | cons x _ ih =>
    rw [addNew_cons]
    by_cases hx : x ∈ s
    · rw [addOne_of_mem (mem_append_left t hx), ih, filter_cons_of_neg (by simpa using hx)]
    rw [filter_cons_of_pos (by simpa using hx), addNew_cons]
    by_cases ht : x ∈ t
    · rw [addOne_of_mem (mem_append_right s ht), ih, addOne_of_mem ht]
    · have hst : x ∉ s ++ t := fun h => (mem_append.1 h).elim hx ht
      rw [addOne_of_not_mem hst, append_assoc, ih, addOne_of_not_mem ht]

/-- **The beginning of a numbering stays one when another beginning is numbered after it.** -/
lemma addNew_prefix_of_prefix (ht : t.Nodup) (hl : l <+: t) (hc : c <+: t) :
    addNew l c <+: t := by
  rcases prefix_or_prefix_of_prefix hl hc with ⟨d, rfl⟩ | h
  · have hd : addNew l (l ++ d) = l ++ d := by
      rw [addNew_append, addNew_of_subset fun _ hx => hx]
      exact addNew_append_self (ht.sublist hc.sublist)
    rw [hd]
    exact hc
  · rw [addNew_of_subset fun _ hx => h.subset hx]
    exact hl

lemma idxOf?_append_singleton (h : x ∉ l) (y : α) :
    (l ++ [x]).idxOf? y = if y = x then some l.length else l.idxOf? y := by
  induction l with
  | nil =>
    by_cases hy : y = x
    · simp [hy, List.idxOf?_cons]
    · simp [hy, List.idxOf?_cons, Ne.symm hy]
  | cons a l ih =>
    obtain ⟨hax, hl⟩ := not_or.1 (mt mem_cons.2 h)
    rw [cons_append, List.idxOf?_cons, List.idxOf?_cons, ih hl]
    by_cases hay : a = y
    · subst hay
      simp [Ne.symm hax]
    · by_cases hy : y = x <;> simp [hay, hy]
      intro hax'
      exact absurd hax'.symm hax

lemma getElem?_of_idxOf? (h : l.idxOf? x = some i) : l[i]? = some x := by
  obtain ⟨hi, rfl, -⟩ := List.idxOf?_eq_some_iff.1 h
  exact List.getElem?_eq_getElem hi

lemma idxOf?_of_getElem? (hl : l.Nodup) (h : l[i]? = some x) : l.idxOf? x = some i := by
  obtain ⟨hi, rfl⟩ := List.getElem?_eq_some_iff.1 h
  refine List.idxOf?_eq_some_iff.2 ⟨hi, rfl, fun j hj hji => ?_⟩
  have := (hl.getElem_inj_iff).1 hji
  omega

lemma lookupOrAdd_snd (l : List α) (x : α) : (lookupOrAdd l x).2 = addOne l x := by
  rw [lookupOrAdd]
  split
  · rename_i i hi
    exact (addOne_of_mem (isSome_idxOf?.1 (by rw [hi]; rfl))).symm
  · rename_i hi
    exact (addOne_of_not_mem (List.idxOf?_eq_none_iff.1 hi)).symm

lemma getElem?_lookupOrAdd (l : List α) (x : α) :
    (lookupOrAdd l x).2[(lookupOrAdd l x).1]? = some x := by
  rw [lookupOrAdd]
  split
  · rename_i i hi
    exact getElem?_of_idxOf? hi
  · simp

lemma lookupOrAdd_fst_lt (l : List α) (x : α) : (lookupOrAdd l x).1 < (addOne l x).length := by
  rw [← lookupOrAdd_snd]
  exact (List.getElem?_eq_some_iff.1 (getElem?_lookupOrAdd l x)).1

section Sorted

variable [LinearOrder α]

variable {l : List α}

omit [DecidableEq α] in
lemma eq_of_ascending (h : l.Pairwise (· < ·)) (h' : l'.Pairwise (· < ·))
    (hmem : ∀ x, x ∈ l ↔ x ∈ l') : l = l' := by
  have hperm := (perm_ext_iff_of_nodup (h.imp ne_of_lt) (h'.imp ne_of_lt)).2 hmem
  exact hperm.eq_of_pairwise (fun a b _ _ hab hba => absurd hba hab.not_gt) h h'

/-- **A sorted batch is appended in ascending order.** -/
lemma exists_addNew_ascending (hl : l.Nodup) (hxs : xs.Pairwise (· ≤ ·)) :
    ∃ new, addNew l xs = l ++ new ∧ new.Pairwise (· < ·) ∧ ∀ y, y ∈ new ↔ y ∈ xs ∧ y ∉ l := by
  obtain ⟨new, hnew, hsub⟩ := exists_addNew_eq l xs
  have hn := nodup_addNew hl xs
  rw [hnew] at hn
  obtain ⟨-, hnodup, hdis⟩ := nodup_append'.1 hn
  refine ⟨new, hnew, ?_, fun y => ⟨fun hy => ⟨hsub.subset hy, fun hyl => hdis hyl hy⟩, ?_⟩⟩
  · exact ((hxs.sublist hsub).and hnodup).imp fun h => lt_of_le_of_ne h.1 h.2
  · rintro ⟨hy, hyl⟩
    have hmem : y ∈ l ++ new := by
      rw [← hnew]
      exact mem_addNew.2 (.inr hy)
    exact (mem_append.1 hmem).resolve_left hyl

lemma addNew_eq_append (hl : l.Nodup) (hxs : xs.Pairwise (· ≤ ·))
    (hnew : new.Pairwise (· < ·)) (hmem : ∀ y, y ∈ new ↔ y ∈ xs ∧ y ∉ l) :
    addNew l xs = l ++ new := by
  obtain ⟨_, heq, hnew', hmem'⟩ := exists_addNew_ascending hl hxs
  rw [heq, eq_of_ascending hnew' hnew fun y => (hmem' y).trans (hmem y).symm]

end Sorted

end Fluree.Lib

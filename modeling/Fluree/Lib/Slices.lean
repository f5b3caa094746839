import Fluree.Lib.Sorted
import Mathlib.Data.List.Forall2

/-!
# Cutting and traversing lists

`sliceAt` cuts a list at a list of bounds, as a sorted stream is handed out to consecutive key
ranges. `chunksOf` cuts a list into pieces of a given length. `mapM_ok_iff` says what a traversal
that succeeds returns.
-/

namespace Fluree.Lib

open List

variable {α β : Type*}

/-- The parts of a list before the first bound, between consecutive bounds and after the last. -/
def sliceAt (before : α → β → Bool) : List β → List α → List (List α)
  | [], l => [l]
  | b :: bs, l =>
    let n := partitionPoint (before · b) l
    l.take n :: sliceAt before bs (l.drop n)

/-- Pieces of `n` elements; `cur` is the piece that is being filled. -/
def chunksFrom (n : ℕ) (cur : List α) : List α → List (List α)
  | [] => if cur.isEmpty then [] else [cur]
  | a :: l => if cur.length + 1 = n then (cur ++ [a]) :: chunksFrom n [] l else chunksFrom n (cur ++ [a]) l

/-- The list in pieces of `n` elements, the last one possibly shorter. -/
def chunksOf (n : ℕ) (l : List α) : List (List α) := chunksFrom n [] l

lemma flatten_chunksFrom (n : ℕ) (cur l : List α) : (chunksFrom n cur l).flatten = cur ++ l := by
  induction l generalizing cur with
  | nil =>
    unfold chunksFrom
    split
    · rename_i h; simp [isEmpty_iff.1 h]
    · simp
  | cons a l ih =>
    unfold chunksFrom
    split
    · rw [flatten_cons, ih]; simp
    · rw [ih]; simp

@[simp] lemma flatten_chunksOf (n : ℕ) (l : List α) : (chunksOf n l).flatten = l :=
  flatten_chunksFrom n [] l

lemma mapM_ok_iff {ε : Type*} {γ δ : Type*} {f : γ → Except ε δ} {l : List γ} {ys : List δ} :
    l.mapM f = .ok ys ↔ List.Forall₂ (fun x y => f x = .ok y) l ys := by
  induction l generalizing ys with
  | nil =>
    rw [mapM_nil, forall₂_nil_left_iff]
    exact ⟨fun h => (Except.ok.inj h).symm, fun h => by rw [h]; rfl⟩
  | cons x l ih =>
    rw [mapM_cons, forall₂_cons_left_iff]
    cases hx : f x with
    | error => exact ⟨fun h => (nomatch h), fun ⟨_, _, h, _⟩ => (nomatch h)⟩
    | ok y =>
      show (do let ys ← l.mapM f; return y :: ys) = .ok ys ↔ _
      cases hl : l.mapM f with
      | error =>
        refine ⟨fun h => (nomatch h), fun ⟨_, _, _, h, _⟩ => ?_⟩
        rw [ih.2 h] at hl
        exact nomatch hl
      | ok zs =>
        constructor
        · intro h
          exact ⟨y, zs, rfl, ih.1 hl, (Except.ok.inj h).symm⟩
        · rintro ⟨_, _, hy, hzs, rfl⟩
          obtain rfl := Except.ok.inj hy
          obtain rfl := Except.ok.inj (hl.symm.trans (ih.2 hzs))
          rfl

section Forall₂

variable {R : α → β → Prop} {l : List α} {l' : List β}

lemma forall₂_mem_left (h : List.Forall₂ R l l') (ha : a ∈ l) : ∃ b ∈ l', R a b := by
  induction h with
  | nil => cases ha
  | cons hab _ ih =>
    rcases mem_cons.1 ha with rfl | ha
    · exact ⟨_, by simp, hab⟩
    · obtain ⟨b, hb, hR⟩ := ih ha
      exact ⟨b, by simp [hb], hR⟩

lemma forall₂_mem_right (h : List.Forall₂ R l l') (hb : b ∈ l') : ∃ a ∈ l, R a b :=
  forall₂_mem_left h.flip hb

end Forall₂

lemma mapM_eq_ok_map {ε : Type*} {γ δ : Type*} {f : γ → Except ε δ} {g : γ → δ} {l : List γ}
    (h : ∀ x ∈ l, f x = .ok (g x)) : l.mapM f = .ok (l.map g) :=
  mapM_ok_iff.2 (forall₂_map_right_iff.2 (forall₂_same.2 h))

end Fluree.Lib

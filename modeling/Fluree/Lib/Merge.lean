import Fluree.Lib.Slices
import Mathlib.Data.List.Perm.Basic
import Mathlib.Order.Lattice

/-!
# Merging sorted streams by popping smallest heads

`Pop key ss x ss'` takes `x` off the front of one stream of `ss`, where no stream has a smaller
front. However the smallest front is found (a heap, a scan), popping until nothing is left
gives all items in order: `Drains.perm`, `Drains.asc`.
-/

namespace Fluree.Lib

open List

variable {α κ : Type*} [LinearOrder κ]

/-- One smallest front is taken off its stream. -/
structure Pop (key : α → κ) (ss : List (List α)) (x : α) (ss' : List (List α)) : Prop where
  step : ∃ pre rest post, ss = pre ++ (x :: rest) :: post ∧ ss' = pre ++ rest :: post
  min : ∀ s ∈ ss, ∀ y ∈ s.head?, key x ≤ key y

/-- `l` is what popping yields until every stream is empty. -/
inductive Drains (key : α → κ) : List (List α) → List α → Prop
  | nil {ss : List (List α)} (h : ∀ s ∈ ss, s = []) : Drains key ss []
  | cons {ss ss' : List (List α)} {x : α} {l : List α} (h : Pop key ss x ss')
      (hl : Drains key ss' l) : Drains key ss (x :: l)

variable {key : α → κ} {ss ss' : List (List α)} {x : α} {l : List α}

lemma Pop.perm (h : Pop key ss x ss') : (x :: ss'.flatten).Perm ss.flatten := by
  obtain ⟨_, _, _, rfl, rfl⟩ := h.step
  simp only [flatten_append, flatten_cons, cons_append]
  exact perm_middle.symm

/-- **Popping yields every item once.** -/
lemma Drains.perm (h : Drains key ss l) : l.Perm ss.flatten := by
  induction h with
  | nil h => rw [flatten_eq_nil_iff.2 h]
  | cons h _ ih => exact (ih.cons _).trans h.perm

lemma Pop.asc (h : Pop key ss x ss') (hs : ∀ s ∈ ss, Asc key s) : ∀ s ∈ ss', Asc key s := by
  obtain ⟨_, _, _, rfl, rfl⟩ := h.step
  intro s hmem
  rcases mem_append.1 hmem with hm | hm
  · exact hs s (mem_append_left _ hm)
  rcases mem_cons.1 hm with rfl | hm
  · exact (pairwise_cons.1 (hs (x :: s) (by simp))).2
  · exact hs s (by simp [hm])

lemma Pop.le (h : Pop key ss x ss') (hs : ∀ s ∈ ss, Asc key s) : ∀ y ∈ ss.flatten, key x ≤ key y := by
  intro y hy
  obtain ⟨s, hmem, hys⟩ := mem_flatten.1 hy
  have hasc := hs s hmem
  have hmin := h.min s hmem
  cases s with
  | nil => simp at hys
  | cons a =>
    have hxa : key x ≤ key a := hmin a rfl
    rcases mem_cons.1 hys with rfl | hys
    · exact hxa
    · exact hxa.trans ((pairwise_cons.1 hasc).1 y hys)

/-- **From sorted streams popping yields a sorted list.** -/
lemma Drains.asc (h : Drains key ss l) (hs : ∀ s ∈ ss, Asc key s) : Asc key l := by
  induction h with
  | nil => exact List.Pairwise.nil
  | cons h hl ih =>
    refine pairwise_cons.2 ⟨?_, ih (h.asc hs)⟩
    intro y hy
    exact h.le hs y (h.perm.mem_iff.1 (mem_cons_of_mem _ (hl.perm.mem_iff.1 hy)))

end Fluree.Lib

/-!
## Binary min-heaps in an array

`siftDown` moves the item at a position down until it is not above a smaller child. The order
of a heap is given by `less`; the results assume that `less` compares by a key.
-/

namespace Fluree.Lib.Heap

variable {α : Type*} {K : Type*}

/-- `less` on the items at two positions. -/
def lessAt (less : α → α → Bool) (h : Array α) (i j : ℕ) : Bool :=
  match h[i]?, h[j]? with
  | some a, some b => less a b
  | _, _ => false

/-- The child that sifting compares with: the right one only when it is smaller. -/
def smallestChild (less : α → α → Bool) (h : Array α) (pos : ℕ) : ℕ :=
  let left := 2 * pos + 1
  let right := left + 1
  if right < h.size && lessAt less h right left then right else left

/-- Sift the item at `pos` down. A path in the heap is shorter than the heap, so its size is
enough fuel. -/
def siftDownFuel (less : α → α → Bool) : ℕ → Array α → ℕ → Array α
  | 0, h, _ => h
  | fuel + 1, h, pos =>
    if 2 * pos + 1 ≥ h.size then h
    else
      let smallest := smallestChild less h pos
      if lessAt less h pos smallest then h
      else siftDownFuel less fuel (h.swapIfInBounds pos smallest) smallest

def siftDown (less : α → α → Bool) (h : Array α) (pos : ℕ) : Array α :=
  siftDownFuel less h.size h pos

/-- Sift the first `n` positions, last one first. -/
def heapifyFrom (less : α → α → Bool) : ℕ → Array α → Array α
  | 0, h => h
  | n + 1, h => heapifyFrom less n (siftDown less h n)

def heapify (less : α → α → Bool) (h : Array α) : Array α :=
  if h.size > 1 then heapifyFrom less (h.size / 2) h else h

variable {less : α → α → Bool}

lemma smallestChild_eq (less : α → α → Bool) (h : Array α) (pos : ℕ) :
    smallestChild less h pos = 2 * pos + 1 ∨
      (smallestChild less h pos = 2 * pos + 2 ∧ 2 * pos + 2 < h.size) := by
  unfold smallestChild
  simp only
  split
  · rename_i hc
    simp only [Bool.and_eq_true, decide_eq_true_eq] at hc
    exact .inr ⟨by omega, by omega⟩
  · exact .inl rfl

lemma swap_perm (h : Array α) (i j : ℕ) : (h.swapIfInBounds i j).toList.Perm h.toList := by
  rw [Array.swapIfInBounds_def]
  split
  · split
    · exact (Array.swap_perm _ _).toList
    · exact .refl _
  · exact .refl _

lemma getElem?_swapIfInBounds (h : Array α) (hi : i < h.size) (hj : j < h.size) (k : ℕ) :
    (h.swapIfInBounds i j)[k]? = if k = j then h[i]? else if k = i then h[j]? else h[k]? := by
  rw [Array.swapIfInBounds_def, dif_pos hi, dif_pos hj, Array.getElem?_swap]
  by_cases h1 : j = k
  · subst h1
    simp [hi]
  · by_cases h2 : i = k
    · subst h2
      simp [h1, Ne.symm h1, hj]
    · simp [h1, h2, Ne.symm h1, Ne.symm h2]

lemma siftDownFuel_perm (fuel : ℕ) (h : Array α) (pos : ℕ) :
    (siftDownFuel less fuel h pos).toList.Perm h.toList := by
  induction fuel generalizing h pos with
  | zero => exact .refl _
  | succ _ ih =>
    unfold siftDownFuel
    split
    · exact .refl _
    simp only
    split
    · exact .refl _
    · exact (ih _ _).trans (swap_perm h _ _)

/-- **Sifting only moves items.** -/
lemma siftDown_perm (h : Array α) (pos : ℕ) : (siftDown less h pos).toList.Perm h.toList :=
  siftDownFuel_perm _ h pos

lemma heapifyFrom_perm (n : ℕ) (h : Array α) : (heapifyFrom less n h).toList.Perm h.toList := by
  induction n generalizing h with
  | zero => exact .refl _
  | succ n ih => exact (ih _).trans (siftDown_perm h n)

lemma heapify_perm (h : Array α) : (heapify less h).toList.Perm h.toList := by
  unfold heapify
  split
  · exact heapifyFrom_perm _ h
  · exact .refl _

/-! ## The order of a heap -/

def IsChild (c p : ℕ) : Prop := c = 2 * p + 1 ∨ c = 2 * p + 2

variable [LinearOrder K] (key : α → K)

def HeapFrom (s : ℕ) (h : Array α) : Prop :=
  ∀ i c a b, s ≤ i → IsChild c i → h[i]? = some a → h[c]? = some b → key a ≤ key b

/-- In order from `s` on, but for the item at `pos` and its children; those are at least what
stands above `pos`. -/
structure DownOrder (s pos : ℕ) (h : Array α) : Prop where
  except : ∀ i c a b, s ≤ i → i ≠ pos → IsChild c i → h[i]? = some a → h[c]? = some b →
    key a ≤ key b
  grand : ∀ p c a b, s ≤ p → IsChild pos p → IsChild c pos → h[p]? = some a → h[c]? = some b →
    key a ≤ key b

variable {key} {s pos : ℕ} {h : Array α}

section

variable (hless : ∀ a b, less a b = true ↔ key a < key b)
include hless

lemma lessAt_iff
    (hi : h[i]? = some a) (hj : h[j]? = some b) : lessAt less h i j = true ↔ key a < key b := by
  simp [lessAt, hi, hj, hless]

lemma smallestChild_le (hc : IsChild c pos)
    (ha : h[smallestChild less h pos]? = some a) (hb : h[c]? = some b) : key a ≤ key b := by
  have hcs := (Array.getElem?_eq_some_iff.1 hb).1
  unfold smallestChild at ha
  simp only at ha
  split at ha
  · rename_i hr
    simp only [Bool.and_eq_true, decide_eq_true_eq] at hr
    rcases hc with rfl | rfl
    · exact ((lessAt_iff hless ha hb).1 hr.2).le
    · exact le_of_eq (by rw [Option.some.inj (ha.symm.trans hb)])
  · rename_i hr
    rcases hc with rfl | rfl
    · exact le_of_eq (by rw [Option.some.inj (ha.symm.trans hb)])
    · simp only [Bool.and_eq_true, decide_eq_true_eq, not_and] at hr
      exact not_lt.1 fun hlt => hr (by omega) ((lessAt_iff hless hb ha).2 hlt)

lemma DownOrder.move (ho : DownOrder key s pos h) (hs : s ≤ pos) (hleft : 2 * pos + 1 < h.size)
    (hstop : lessAt less h pos (smallestChild less h pos) ≠ true) :
    DownOrder key s (smallestChild less h pos) (h.swapIfInBounds pos (smallestChild less h pos)) := by
  have hchild : IsChild (smallestChild less h pos) pos := by
    rcases smallestChild_eq less h pos with hq | ⟨hq, -⟩
    · exact .inl hq
    · exact .inr hq
  have hlt : smallestChild less h pos < h.size := by
    rcases smallestChild_eq less h pos with hq | ⟨hq, hr⟩ <;> omega
  have hmin : ∀ c a b, IsChild c pos → h[smallestChild less h pos]? = some a → h[c]? = some b →
      key a ≤ key b := fun _ _ _ => smallestChild_le hless
  generalize smallestChild less h pos = q at hchild hlt hstop hmin
  have hqpos : q ≠ pos := by rcases hchild with hq | hq <;> omega
  have hpos : pos < h.size := by omega
  obtain ⟨x, hx⟩ : ∃ x, h[pos]? = some x := ⟨_, Array.getElem?_eq_getElem hpos⟩
  obtain ⟨y, hy⟩ : ∃ y, h[q]? = some y := ⟨_, Array.getElem?_eq_getElem hlt⟩
  have hyx : key y ≤ key x := not_lt.1 fun hxy => hstop ((lessAt_iff hless hx hy).2 hxy)
  have hget := getElem?_swapIfInBounds h hpos hlt
  refine ⟨?_, ?_⟩
  · intro i c a b hi hiq hc ha hb
    rw [hget] at ha hb
    rw [if_neg hiq] at ha
    by_cases hip : i = pos
    · -- the smaller child now stands above the old item and its other child
      rw [if_pos hip, hy] at ha
      obtain rfl := Option.some.inj ha
      subst hip
      by_cases hcq : c = q
      · rw [if_pos hcq, hx] at hb
        obtain rfl := Option.some.inj hb
        exact hyx
      · rw [if_neg hcq, if_neg (by rcases hc with hc | hc <;> omega)] at hb
        exact hmin c y b hc hy hb
    · rw [if_neg hip] at ha
      have hcq : c ≠ q := by
        rintro rfl
        rcases hc with hc | hc <;> rcases hchild with hq | hq <;> omega
      rw [if_neg hcq] at hb
      by_cases hcp : c = pos
      · rw [if_pos hcp, hy] at hb
        obtain rfl := Option.some.inj hb
        exact ho.grand i q a y hi (hcp ▸ hc) hchild ha hy
      · rw [if_neg hcp] at hb
        exact ho.except i c a b hi hip hc ha hb
  · intro p c a b _ hqp hc ha hb
    have hp : p = pos := by rcases hqp with hqp | hqp <;> rcases hchild with hq | hq <;> omega
    rw [hget] at ha hb
    rw [hp, if_neg (Ne.symm hqpos), if_pos rfl, hy] at ha
    rw [if_neg (by rcases hc with hc | hc <;> omega), if_neg (by
      rcases hc with hc | hc <;> rcases hchild with hq | hq <;> omega)] at hb
    obtain rfl := Option.some.inj ha
    exact ho.except q c y b (by rcases hchild with hq | hq <;> omega) hqpos hc hy hb

end

lemma DownOrder.finish (ho : DownOrder key s pos h)
    (hstop : ∀ c a b, IsChild c pos → h[pos]? = some a → h[c]? = some b → key a ≤ key b) :
    HeapFrom key s h := by
  intro i c a b hi hc ha hb
  by_cases hip : i = pos
  · subst hip
    exact hstop c a b hc ha hb
  · exact ho.except i c a b hi hip hc ha hb

section

variable (hless : ∀ a b, less a b = true ↔ key a < key b)
include hless

lemma DownOrder.siftDownFuel (ho : DownOrder key s pos h) (hs : s ≤ pos)
    (hfuel : h.size ≤ pos + fuel) : HeapFrom key s (siftDownFuel less fuel h pos) := by
  induction fuel generalizing h pos with
  | zero =>
    refine ho.finish fun c a b hc _ hb => ?_
    have hlt := (Array.getElem?_eq_some_iff.1 hb).1
    rcases hc with hc | hc <;> omega
  | succ fuel ih =>
    unfold Heap.siftDownFuel
    split
    · rename_i hleaf
      refine ho.finish fun c a b hc _ hb => ?_
      have hlt := (Array.getElem?_eq_some_iff.1 hb).1
      rcases hc with hc | hc <;> omega
    · rename_i hleft
      have hq : 2 * pos + 1 ≤ smallestChild less h pos ∧ smallestChild less h pos < h.size := by
        rcases smallestChild_eq less h pos with hq | ⟨hq, hr⟩ <;> omega
      simp only
      split
      · rename_i hstop
        refine ho.finish fun c a b hc ha hb => ?_
        obtain ⟨y, hy⟩ : ∃ y, h[smallestChild less h pos]? = some y :=
          ⟨_, Array.getElem?_eq_getElem hq.2⟩
        exact ((lessAt_iff hless ha hy).1 hstop).le.trans (smallestChild_le hless hc hy hb)
      · rename_i hstop
        refine ih (ho.move hless hs (by omega) hstop) (by omega) ?_
        rw [Array.size_swapIfInBounds]
        omega

/-- **Sifting down restores the order.** -/
lemma DownOrder.siftDown
    (ho : DownOrder key s pos h) (hs : s ≤ pos) : HeapFrom key s (siftDown less h pos) :=
  ho.siftDownFuel hless hs (by omega)

lemma heapifyFrom_heap (hn : HeapFrom key n h) : HeapFrom key 0 (heapifyFrom less n h) := by
  induction n generalizing h with
  | zero => exact hn
  | succ n ih =>
    refine ih (DownOrder.siftDown hless ⟨?_, ?_⟩ (Nat.le_refl n))
    · intro i c a b hi hin hc ha hb
      exact hn i c a b (by omega) hc ha hb
    · intro p c a b hp hnp
      rcases hnp with hnp | hnp <;> omega

/-- **Building from the bottom up gives a heap.** -/
lemma heapify_heap (h : Array α) : HeapFrom key 0 (heapify less h) := by
  have hleaves : HeapFrom key (h.size / 2) h := by
    intro i c a b hi hc _ hb
    have hlt := (Array.getElem?_eq_some_iff.1 hb).1
    rcases hc with hc | hc <;> omega
  unfold heapify
  split
  · exact heapifyFrom_heap hless hleaves
  rename_i hsmall
  intro i c a b _ hc _ hb
  have hlt := (Array.getElem?_eq_some_iff.1 hb).1
  rcases hc with hc | hc <;> omega

end

/-- **The first item of a heap is a smallest one.** -/
lemma HeapFrom.min (hh : HeapFrom key 0 h) (hroot : h[0]? = some root) :
    ∀ (j : ℕ) (b : α), h[j]? = some b → key root ≤ key b := by
  intro j
  induction j using Nat.strongRecOn with
  | ind j ih =>
    intro b hb
    rcases Nat.eq_zero_or_pos j with rfl | hj
    · exact le_of_eq (by rw [Option.some.inj (hroot.symm.trans hb)])
    have hlt := (Array.getElem?_eq_some_iff.1 hb).1
    obtain ⟨a, ha⟩ : ∃ a, h[(j - 1) / 2]? = some a := ⟨_, Array.getElem?_eq_getElem (by omega)⟩
    have hchild : IsChild j ((j - 1) / 2) := by unfold IsChild; omega
    exact (ih _ (by omega) a ha).trans (hh _ j a b (Nat.zero_le _) hchild ha hb)

lemma HeapFrom.setRoot (hh : HeapFrom key 0 h) (x : α) : DownOrder key 0 0 (h.setIfInBounds 0 x) := by
  refine ⟨?_, ?_⟩
  · intro i c a b hi hi0 hc ha hb
    rw [Array.getElem?_setIfInBounds_ne (by omega)] at ha
    rw [Array.getElem?_setIfInBounds_ne (by rcases hc with hc | hc <;> omega)] at hb
    exact hh i c a b hi hc ha hb
  · intro p c a b _ hp
    rcases hp with hp | hp <;> omega

lemma HeapFrom.swapPop (hh : HeapFrom key 0 h) :
    DownOrder key 0 0 (h.swapIfInBounds 0 (h.size - 1)).pop := by
  refine ⟨?_, ?_⟩
  · intro i c a b hi hi0 hc ha hb
    have hci : i < c := by rcases hc with hc | hc <;> omega
    rw [Array.getElem?_pop] at ha hb
    split at hb
    · rename_i hlt
      rw [Array.size_swapIfInBounds] at hlt
      rw [if_pos (by rw [Array.size_swapIfInBounds]; omega)] at ha
      rw [getElem?_swapIfInBounds h (by omega) (by omega), if_neg (by omega), if_neg (by omega)] at ha hb
      exact hh i c a b hi hc ha hb
    · simp at hb
  · intro p c a b _ hp
    rcases hp with hp | hp <;> omega

lemma swapPop_perm (hroot : h[0]? = some root) :
    (root :: (h.swapIfInBounds 0 (h.size - 1)).pop.toList).Perm h.toList := by
  have hpos : 0 < h.size := (Array.getElem?_eq_some_iff.1 hroot).1
  have hlast : (h.swapIfInBounds 0 (h.size - 1)).toList.getLast? = some root := by
    rw [List.getLast?_eq_getElem?, Array.length_toList, Array.getElem?_toList,
      Array.size_swapIfInBounds, getElem?_swapIfInBounds h hpos (by omega), if_pos rfl, hroot]
  obtain ⟨ys, hys⟩ := List.getLast?_eq_some_iff.1 hlast
  have hpop : (h.swapIfInBounds 0 (h.size - 1)).pop.toList = ys := by
    rw [Array.toList_pop, hys, List.dropLast_concat]
  rw [hpop]
  exact (List.perm_append_singleton root ys).symm.trans (hys ▸ swap_perm h 0 (h.size - 1))

end Fluree.Lib.Heap

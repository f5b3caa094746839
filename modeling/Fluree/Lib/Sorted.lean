import Mathlib.Data.List.Sort
import Mathlib.Data.List.Chain

/-!
# Sorting by a comparator, and lists sorted by a key

* `TotalOn cmp l`: on the members of `l` the comparator is a total preorder;
* `Asc key l`, `StrictAsc key l`: sorted by a key, with and without ties. A strictly
  sorted list is determined by its members (`StrictAsc.ext`);
* `partitionPoint p l`: the length of the longest initial part on which `p` holds; on a
  list that `p` splits (`Splits p l`) the two parts are the two filters.
-/

namespace Fluree.Lib

open List Ordering

variable {α β κ : Type*}

/-! ## Sorting -/

/-- On the members of `l` the comparator is a total preorder. -/
structure TotalOn (cmp : α → α → Ordering) (l : List α) : Prop where
  swap : ∀ a ∈ l, ∀ b ∈ l, cmp b a = (cmp a b).swap
  trans : ∀ a ∈ l, ∀ b ∈ l, ∀ c ∈ l, cmp a b ≠ .gt → cmp b c ≠ .gt → cmp a c ≠ .gt

variable {cmp : α → α → Ordering} {l : List α}

lemma TotalOn.mono (h : TotalOn cmp l) (hs : ∀ a ∈ l', a ∈ l) : TotalOn cmp l' :=
  ⟨fun a ha b hb => h.swap a (hs a ha) b (hs b hb),
   fun a ha b hb c hc => h.trans a (hs a ha) b (hs b hb) c (hs c hc)⟩

lemma totalOn_of_key [LinearOrder κ] {key : α → κ} (h : ∀ a b, cmp a b = compare (key a) (key b))
    (l : List α) : TotalOn cmp l := by
  constructor
  · intro a _ b _
    rw [h, h]; exact Std.OrientedOrd.eq_swap
  · intro a _ b _ c _ hab hbc
    simp only [h, ne_eq, compare_gt_iff_gt, not_lt] at *
    exact le_trans hab hbc

lemma totalOn_compare [Ord κ] [Std.TransOrd κ] (key : α → κ) (l : List α) :
    TotalOn (fun a b => compare (key a) (key b)) l := by
  constructor
  · intro a _ b _
    exact Std.OrientedOrd.eq_swap
  · intro a _ b _ c _ hab hbc
    exact isLE_iff_ne_gt.1 (Std.TransOrd.isLE_trans (isLE_iff_ne_gt.2 hab) (isLE_iff_ne_gt.2 hbc))

lemma TotalOn.andThen (h₁ : TotalOn c₁ l) (h₂ : TotalOn c₂ l) :
    TotalOn (fun a b => (c₁ a b).then (c₂ a b)) l := by
  constructor
  · intro a ha b hb
    rw [h₁.swap a ha b hb, h₂.swap a ha b hb, swap_then]
  · intro a ha b hb c hc hab hbc
    have hle : ∀ x y : α, (c₁ x y).then (c₂ x y) ≠ .gt → c₁ x y ≠ .gt := by
      intro x y h hgt
      exact h (by rw [hgt]; rfl)
    have hac := h₁.trans a ha b hb c hc (hle a b hab) (hle b c hbc)
    cases h : c₁ a c with
    | lt => simp
    | gt => exact absurd h hac
    | eq =>
      -- both links of the chain are then ties, and the second comparator decides them
      have hca : c₁ c a = .eq := by rw [h₁.swap a ha c hc, h]; rfl
      have hba : c₁ b a ≠ .gt := h₁.trans b hb c hc a ha (hle b c hbc) (by simp [hca])
      have hcb : c₁ c b ≠ .gt := h₁.trans c hc a ha b hb (by simp [hca]) (hle a b hab)
      have htie : ∀ x ∈ l, ∀ y ∈ l, c₁ x y ≠ .gt → c₁ y x ≠ .gt → c₁ x y = .eq := by
        intro x hx y hy hxy hyx
        rw [h₁.swap x hx y hy] at hyx
        cases hc : c₁ x y <;> simp_all
      rw [htie a ha b hb (hle a b hab) hba] at hab
      rw [htie b hb c hc (hle b c hbc) hcb] at hbc
      exact h₂.trans a ha b hb c hc hab hbc

lemma TotalOn.comap {cmp : β → β → Ordering} {f : α → β} (h : TotalOn cmp (l.map f)) :
    TotalOn (fun a b => cmp (f a) (f b)) l :=
  ⟨fun _ ha _ hb => h.swap _ (mem_map_of_mem ha) _ (mem_map_of_mem hb),
   fun _ ha _ hb _ hc => h.trans _ (mem_map_of_mem ha) _ (mem_map_of_mem hb) _
    (mem_map_of_mem hc)⟩

/-- What a total order promises of its comparator: the arguments reversed reverse the answer,
and it is transitive through `lt` and through `eq`. -/
structure OrderOn (cmp : α → α → Ordering) (l : List α) : Prop where
  reverse : ∀ a ∈ l, ∀ b ∈ l, cmp b a = (cmp a b).swap
  less : ∀ a ∈ l, ∀ b ∈ l, ∀ c ∈ l, cmp a b = .lt → cmp b c = .lt → cmp a c = .lt
  equal : ∀ a ∈ l, ∀ b ∈ l, ∀ c ∈ l, cmp a b = .eq → cmp b c = .eq → cmp a c = .eq

lemma totalOn_iff_orderOn : TotalOn cmp l ↔ OrderOn cmp l := by
  constructor
  · intro h
    have hle : ∀ a ∈ l, ∀ b ∈ l, cmp a b ≠ .lt → cmp b a ≠ .gt := by
      intro a ha b hb hlt hgt
      rw [h.swap a ha b hb] at hgt
      cases hc : cmp a b <;> simp_all
    refine ⟨h.swap, ?_, ?_⟩
    · intro a ha b hb c hc hab hbc
      by_contra hac
      -- otherwise `b ≤ c ≤ a`, against `a < b`
      have hba := h.trans b hb c hc a ha (by simp [hbc]) (hle a ha c hc hac)
      rw [h.swap a ha b hb, hab] at hba
      exact hba rfl
    · intro a ha b hb c hc hab hbc
      have hba : cmp b a = .eq := by rw [h.swap a ha b hb, hab]; rfl
      have hcb : cmp c b = .eq := by rw [h.swap b hb c hc, hbc]; rfl
      have hac := h.trans a ha b hb c hc (by simp [hab]) (by simp [hbc])
      have hca := h.trans c hc b hb a ha (by simp [hcb]) (by simp [hba])
      rw [h.swap a ha c hc] at hca
      cases hc : cmp a c <;> simp_all
  · intro h
    refine ⟨h.reverse, ?_⟩
    intro a ha b hb c hc hab hbc hac
    have hca : cmp c a = .lt := by rw [h.reverse a ha c hc, hac]; rfl
    -- `c < a` closes a cycle with every way in which `a ≤ b ≤ c`
    cases hab' : cmp a b with
    | gt => exact hab hab'
    | lt =>
      have hcb := h.less c hc a ha b hb hca hab'
      rw [h.reverse b hb c hc] at hcb
      cases hbc' : cmp b c <;> simp_all
    | eq =>
      have hba : cmp b a = .eq := by rw [h.reverse a ha b hb, hab']; rfl
      cases hbc' : cmp b c with
      | gt => exact hbc hbc'
      | lt =>
        have := h.less b hb c hc a ha hbc' hca
        rw [hba] at this
        cases this
      | eq =>
        have := h.equal a ha b hb c hc hab' hbc'
        rw [hac] at this
        cases this

lemma compare_chain {α : Type*} [LinearOrder α] {a b c : α} (hab : compare a b ≠ .gt)
    (hbc : compare b c ≠ .gt) :
    (compare a b = .eq ∧ compare b c = .eq ∧ compare a c = .eq) ∨ compare a c = .lt := by
  rw [Ne, compare_gt_iff_gt, not_lt] at hab hbc
  rcases hab.eq_or_lt with rfl | hlt
  · rcases hbc.eq_or_lt with rfl | hlt
    · exact .inl ⟨compare_eq_iff_eq.2 rfl, compare_eq_iff_eq.2 rfl, compare_eq_iff_eq.2 rfl⟩
    · exact .inr (compare_lt_iff_lt.2 hlt)
  · exact .inr (compare_lt_iff_lt.2 (lt_of_lt_of_le hlt hbc))

/-- A sort that leaves the order of ties open. -/
structure SortUnstable where
  sort : ∀ {α : Type}, (α → α → Ordering) → List α → List α
  perm : ∀ {α : Type} (cmp : α → α → Ordering) (l : List α), (sort cmp l).Perm l
  sorted : ∀ {α : Type} (cmp : α → α → Ordering) (l : List α), TotalOn cmp l →
    (sort cmp l).Pairwise (fun a b => cmp a b ≠ .gt)

/-- Insertion of `a` before the first member that is not smaller. -/
def insertBy (cmp : α → α → Ordering) (a : α) : List α → List α
  | [] => [a]
  | b :: l => if cmp a b = .gt then b :: insertBy cmp a l else a :: b :: l

def insertionSortBy (cmp : α → α → Ordering) : List α → List α
  | [] => []
  | a :: l => insertBy cmp a (insertionSortBy cmp l)

lemma insertBy_perm (cmp : α → α → Ordering) (a : α) (l : List α) :
    (insertBy cmp a l).Perm (a :: l) := by
  induction l with
  | nil => exact .refl _
  | cons b l ih =>
    unfold insertBy
    split
    · exact (ih.cons b).trans (.swap a b l)
    · exact .refl _

lemma insertionSortBy_perm (cmp : α → α → Ordering) (l : List α) :
    (insertionSortBy cmp l).Perm l := by
  induction l with
  | nil => exact .refl _
  | cons a l ih => exact (insertBy_perm cmp a _).trans (ih.cons a)

lemma insertBy_sorted (ht : TotalOn cmp (a :: l)) (hl : l.Pairwise (fun a b => cmp a b ≠ .gt)) :
    (insertBy cmp a l).Pairwise (fun a b => cmp a b ≠ .gt) := by
  induction l with
  | nil => simp [insertBy]
  | cons b l ih =>
    have hb := pairwise_cons.1 hl
    unfold insertBy
    split
    · rename_i hgt
      refine pairwise_cons.2 ⟨?_, ih (ht.mono (by simp; tauto)) hb.2⟩
      intro c hc
      rcases mem_cons.1 ((insertBy_perm cmp a l).mem_iff.1 hc) with rfl | hc
      · rw [ht.swap c (by simp) b (by simp), hgt]; decide
      · exact hb.1 c hc
    · rename_i hle
      refine pairwise_cons.2 ⟨?_, hl⟩
      intro c hc
      rcases mem_cons.1 hc with rfl | hc
      · exact hle
      · exact ht.trans a (by simp) b (by simp) c (by simp [hc]) hle (hb.1 c hc)

lemma insertionSortBy_sorted (ht : TotalOn cmp l) :
    (insertionSortBy cmp l).Pairwise (fun a b => cmp a b ≠ .gt) := by
  induction l with
  | nil => exact List.Pairwise.nil
  | cons a l ih =>
    refine insertBy_sorted (ht.mono fun b hb => ?_) (ih (ht.mono (by simp; tauto)))
    rcases mem_cons.1 hb with rfl | hb
    · simp
    · exact mem_cons_of_mem _ ((insertionSortBy_perm cmp l).mem_iff.1 hb)

def SortUnstable.insertion : SortUnstable where
  sort := insertionSortBy
  perm := insertionSortBy_perm
  sorted _ _ := insertionSortBy_sorted

@[simp] lemma SortUnstable.mem_sort (σ : SortUnstable) {α : Type} {cmp : α → α → Ordering}
    {l : List α} {a : α} : a ∈ σ.sort cmp l ↔ a ∈ l := (σ.perm cmp l).mem_iff

/-! ## Lists sorted by a key -/

section Keyed

variable [LinearOrder κ] (key : α → κ)

def Asc (l : List α) : Prop := l.Pairwise (fun a b => key a ≤ key b)

/-- Strictly sorted by `key`: each key at most once. -/
def StrictAsc (l : List α) : Prop := l.Pairwise (fun a b => key a < key b)

variable {key}

variable {l : List α}

lemma StrictAsc.asc (h : StrictAsc key l) : Asc key l := h.imp le_of_lt

lemma StrictAsc.eq_of_key_eq (h : StrictAsc key l) (ha : a ∈ l) (hb : b ∈ l)
    (hk : key a = key b) : a = b := by
  induction l with
  | nil => simp at ha
  | cons c l ih =>
    have hc := pairwise_cons.1 h
    rcases mem_cons.1 ha with hac | ha' <;> rcases mem_cons.1 hb with hbc | hb'
    · rw [hac, hbc]
    · exact absurd hk (hac ▸ hc.1 b hb').ne
    · exact absurd hk (hbc ▸ hc.1 a ha').ne'
    · exact ih hc.2 ha' hb'

lemma Asc.strict (h : Asc key l) (hn : (l.map key).Nodup) : StrictAsc key l := by
  have hn' : l.Pairwise (fun a b => key a ≠ key b) := pairwise_map.1 hn
  exact (h.and hn').imp fun hab => lt_of_le_of_ne hab.1 hab.2

lemma SortUnstable.asc (σ : SortUnstable) {α : Type} {key : α → κ} {cmp : α → α → Ordering}
    (h : ∀ a b, cmp a b = compare (key a) (key b)) (l : List α) : Asc key (σ.sort cmp l) := by
  refine (σ.sorted cmp l (totalOn_of_key h l)).imp fun {a b} hab => ?_
  rw [h] at hab
  simpa only [ne_eq, compare_gt_iff_gt, not_lt] using hab

end Keyed

/-! ## Partition points -/

/-- The length of the longest initial part on which `p` holds. -/
def partitionPoint (p : α → Bool) (l : List α) : ℕ := (l.takeWhile p).length

/-- `p` splits `l`: once false, it stays false. -/
def Splits (p : α → Bool) (l : List α) : Prop := l.Pairwise (fun a b => p b = true → p a = true)

variable {l : List α}

lemma Splits.takeWhile_eq (h : Splits p l) : l.takeWhile p = l.filter p := by
  induction l with
  | nil => rfl
  | cons a l ih =>
    have ha := pairwise_cons.1 h
    by_cases hp : p a
    · simp [hp, ih ha.2]
    · have : l.filter p = [] := filter_eq_nil_iff.2 fun b hb hpb => hp (ha.1 b hb hpb)
      simp [hp, this]

lemma Splits.dropWhile_eq (h : Splits p l) : l.dropWhile p = l.filter (fun a => !p a) := by
  induction l with
  | nil => rfl
  | cons a l ih =>
    have ha := pairwise_cons.1 h
    by_cases hp : p a
    · simp [hp, ih ha.2]
    have : l.filter (fun a => !p a) = l :=
      filter_eq_self.2 fun b hb => by
        have := mt (ha.1 b hb) hp
        simpa using this
    simp [hp, this]

lemma Asc.splits_lt [LinearOrder κ] (h : Asc key l) (b : κ) :
    Splits (fun a => decide (key a < b)) l :=
  h.imp fun hab hb => by simp only [decide_eq_true_eq] at *; exact lt_of_le_of_lt hab hb

lemma Asc.splits_le [LinearOrder κ] (h : Asc key l) (b : κ) :
    Splits (fun a => decide (key a ≤ b)) l :=
  h.imp fun hab hb => by simp only [decide_eq_true_eq] at *; exact le_trans hab hb

end Fluree.Lib

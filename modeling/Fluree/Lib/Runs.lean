import Mathlib.Data.List.TakeWhile
import Fluree.Lib.Slices

/-!
# Runs of related neighbours

`runsBy same l` cuts `l` into maximal runs: a run ends at the first item that is not related
to the run's first item. When `same` is equality of a key by which `l` is sorted, each key has
exactly one run, and the run is the key's filter (`runsBy_sorted`).
-/

namespace Fluree.Lib

open List

variable {α β κ : Type*}

/-- The runs of a list that continues the run `cur` (reversed) started by `first`. -/
def runsFrom (same : α → α → Bool) (first : α) : List α → List α → List (List α)
  | cur, [] => [cur.reverse]
  | cur, b :: l =>
    if same first b then runsFrom same first (b :: cur) l
    else cur.reverse :: runsFrom same b [b] l

def runsBy (same : α → α → Bool) : List α → List (List α)
  | [] => []
  | a :: l => runsFrom same a [a] l

variable (same : α → α → Bool)

lemma runsFrom_eq (first : α) (cur l : List α) : runsFrom same first cur l =
      (cur.reverse ++ l.takeWhile (same first)) :: runsBy same (l.dropWhile (same first)) := by
  induction l generalizing cur with
  | nil => simp [runsFrom, runsBy]
  | cons b l ih =>
    by_cases h : same first b
    · simp [runsFrom, h, ih]
    · simp [runsFrom, runsBy, h]

lemma runsBy_cons (a : α) (l : List α) :
    runsBy same (a :: l) = (a :: l.takeWhile (same a)) :: runsBy same (l.dropWhile (same a)) := by
  rw [runsBy, runsFrom_eq]; rfl

/-- Induction run by run. -/
lemma runs_induction {motive : List α → Prop} (nil : motive [])
    (cons : ∀ a l, motive (l.dropWhile (same a)) → motive (a :: l)) (l : List α) : motive l := by
  induction h : l.length using Nat.strong_induction_on generalizing l with
  | _ n ih =>
    cases l with
    | nil => exact nil
    | cons a l =>
      have hlen := (dropWhile_sublist (same a) (l := l)).length_le
      simp only [length_cons] at h
      exact cons a l (ih _ (by omega) _ rfl)

lemma flatten_runsBy (l : List α) : (runsBy same l).flatten = l := by
  induction l using runs_induction same with
  | nil => rfl
  | cons a l ih => rw [runsBy_cons, flatten_cons, ih, cons_append, takeWhile_append_dropWhile]

variable {same : α → α → Bool} {key : α → κ}

/-- **The runs of a sorted list are the filters of its keys**, in ascending order. -/
lemma runsBy_sorted [LinearOrder κ] {l : List α}
    (hsame : ∀ a b, same a b = true ↔ key a = key b) (hl : Asc key l) :
    ∃ keys : List κ, StrictAsc id keys ∧ (∀ v, v ∈ keys ↔ ∃ a ∈ l, key a = v) ∧
      runsBy same l = keys.map (fun v => l.filter (fun a => key a = v)) := by
  induction l using runs_induction same with
  | nil => exact ⟨[], List.Pairwise.nil, by simp, rfl⟩
  | cons a l ih =>
    have ha := pairwise_cons.1 hl
    have hsplit : Splits (same a) l := by
      refine List.Pairwise.imp_of_mem ?_ ha.2
      intro b c hb _ hbc hac
      have h1 := ha.1 b hb
      have h2 := (hsame a c).1 hac
      exact (hsame a b).2 (le_antisymm h1 (h2 ▸ hbc))
    have htake : l.takeWhile (same a) = l.filter (fun b => key b = key a) := by
      rw [hsplit.takeWhile_eq]
      refine filter_congr fun b _ => ?_
      rw [Bool.eq_iff_iff, hsame, decide_eq_true_eq, eq_comm]
    have hdrop : l.dropWhile (same a) = l.filter (fun b => !decide (key b = key a)) := by
      rw [hsplit.dropWhile_eq]
      refine filter_congr fun b _ => ?_
      congr 1
      rw [Bool.eq_iff_iff, hsame, decide_eq_true_eq, eq_comm]
    obtain ⟨keys, hk1, hk2, hk3⟩ := ih (ha.2.sublist (dropWhile_sublist _))
    have hgt : ∀ v ∈ keys, key a < v := by
      intro v hv
      obtain ⟨b, hb, rfl⟩ := (hk2 v).1 hv
      rw [hdrop] at hb
      obtain ⟨hb, hne⟩ := mem_filter.1 hb
      exact lt_of_le_of_ne (ha.1 b hb) fun he => by simp [he] at hne
    refine ⟨key a :: keys, pairwise_cons.2 ⟨hgt, hk1⟩, ?_, ?_⟩
    · intro v
      rw [mem_cons, hk2, hdrop]
      simp only [mem_filter, Bool.not_eq_true', decide_eq_false_iff_not, mem_cons,
        exists_eq_or_imp]
      constructor
      · rintro (rfl | ⟨b, ⟨hb, -⟩, rfl⟩)
        · exact .inl rfl
        · exact .inr ⟨b, hb, rfl⟩
      · rintro (rfl | ⟨b, hb, rfl⟩)
        · exact .inl rfl
        · by_cases hba : key b = key a
          · exact .inl hba
          · exact .inr ⟨b, ⟨hb, hba⟩, rfl⟩
    · rw [runsBy_cons, hk3, htake, map_cons]
      congr 1
      · simp
      · refine map_congr_left fun v hv => ?_
        rw [hdrop, filter_filter]
        have hne : key a ≠ v := (hgt v hv).ne
        rw [filter_cons_of_neg (by simpa using hne)]
        refine filter_congr fun b _ => ?_
        by_cases hb : key b = v
        · simp [hb, Ne.symm hne]
        · simp [hb]

/-- Results computed run by run and filed under the run's key can be read key by key. -/
lemma flatMap_runsBy_filter [LinearOrder κ] {l : List α}
    (hsame : ∀ a b, same a b = true ↔ key a = key b) (hl : Asc key l) (f : List α → List β)
    {keyOf : β → κ} (hf : ∀ run v, (∀ a ∈ run, key a = v) → ∀ b ∈ f run, keyOf b = v)
    (hnil : f [] = []) (v : κ) : ((runsBy same l).flatMap f).filter (fun b => keyOf b = v) =
      f (l.filter (fun a => key a = v)) := by
  obtain ⟨keys, hk1, hk2, hk3⟩ := runsBy_sorted hsame hl
  have hkey : ∀ w, ∀ b ∈ f (l.filter (fun a => key a = w)), keyOf b = w := by
    intro w
    refine hf _ w fun a ha => ?_
    simpa using (mem_filter.1 ha).2
  have hother : ∀ w, w ≠ v →
      (f (l.filter (fun a => key a = w))).filter (fun b => keyOf b = v) = [] := by
    intro w hw
    rw [filter_eq_nil_iff]
    intro b hb
    rw [hkey w b hb]; simpa using hw
  have hself : (f (l.filter (fun a => key a = v))).filter (fun b => keyOf b = v) =
      f (l.filter (fun a => key a = v)) :=
    filter_eq_self.2 fun b hb => by simpa using hkey v b hb
  rw [hk3, flatMap_map]
  by_cases hv : v ∈ keys
  · -- the one run of `v` is kept, the runs around it are not
    obtain ⟨xs, ys, rfl⟩ := append_of_mem hv
    have hnd := pairwise_append.1 hk1
    have hxs : ∀ w ∈ xs, w ≠ v := fun w hw => (hnd.2.2 w hw v (by simp)).ne
    have hys : ∀ w ∈ ys, w ≠ v := fun w hw => ((pairwise_cons.1 hnd.2.1).1 w hw).ne'
    have hempty : ∀ zs : List κ, (∀ w ∈ zs, w ≠ v) →
        (zs.flatMap fun w => f (l.filter (fun a => key a = w))).filter (fun b => keyOf b = v) = [] := by
      intro zs hzs
      rw [filter_flatMap, flatMap_eq_nil_iff]
      exact fun w hw => hother w (hzs w hw)
    rw [flatMap_append, filter_append, hempty xs hxs, flatMap_cons, filter_append,
      hself, hempty ys hys]
    simp
  · have hnone : l.filter (fun a => key a = v) = [] := by
      rw [filter_eq_nil_iff]
      intro a ha
      have := mt (hk2 v).2 hv
      simp only [not_exists, not_and] at this
      simpa using this a ha
    rw [hnone, hnil, filter_flatMap, flatMap_eq_nil_iff]
    intro w hw
    exact hother w (fun h => hv (h ▸ hw))

end Fluree.Lib

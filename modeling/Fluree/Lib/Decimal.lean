import Mathlib.Algebra.Order.Field.Basic
import Mathlib.Tactic.FieldSimp
import Mathlib.Tactic.Ring

/-!
# Decimals

A decimal is a pair of digits and a scale with the value `digits * 10^(-scale)`
(`Decimal.value`). Many pairs have one value; `normalized` takes the trailing zeros off the
digits and is the same for all of them (`normalized_unique`).
-/

namespace Fluree.Lib.Decimal

def value (digits scale : ℤ) : ℚ := digits * 10 ^ (-scale)

/-- Drop up to `k` trailing zeros. -/
def stripZeros : ℕ → ℤ → ℤ → ℤ × ℤ
  | 0, digits, scale => (digits, scale)
  | k + 1, digits, scale =>
    if digits % 10 = 0 then stripZeros k (digits / 10) (scale - 1) else (digits, scale)

/-- No trailing zero in the digits, and zero with scale zero. -/
def normalized (digits scale : ℤ) : ℤ × ℤ :=
  if digits = 0 then (0, 0) else stripZeros digits.natAbs digits scale

def isInteger (digits scale : ℤ) : Bool := decide (scale ≤ 0) || digits.tmod (10 ^ scale.toNat) == 0

/-- The digits at scale zero; what is behind the point is cut off. -/
def withScaleZero (digits scale : ℤ) : ℤ :=
  if scale ≤ 0 then digits * 10 ^ (-scale).toNat else digits.tdiv (10 ^ scale.toNat)

lemma value_zero (scale : ℤ) : value 0 scale = 0 := by simp [value]

lemma value_mul_ten (digits scale : ℤ) : value (digits * 10) scale = value digits (scale - 1) := by
  unfold value
  rw [show -(scale - 1) = -scale + 1 by ring, zpow_add_one₀ (by norm_num)]
  push_cast
  ring

lemma value_mul_pow (digits scale : ℤ) (k : ℕ) :
    value (digits * 10 ^ k) scale = value digits (scale - k) := by
  induction k generalizing scale with
  | zero => simp
  | succ k ih =>
    rw [pow_succ, ← mul_assoc, value_mul_ten, ih]
    congr 1
    push_cast
    ring

lemma value_natCast (digits : ℤ) (k : ℕ) : value digits k = digits / 10 ^ k := by
  rw [value, zpow_neg, zpow_natCast, div_eq_mul_inv]

lemma value_binary (a : ℤ) (k : ℕ) : value (a * 5 ^ k) k = a / 2 ^ k := by
  have h10 : (10 : ℚ) ^ k = 5 ^ k * 2 ^ k := by rw [← mul_pow]; norm_num
  rw [value_natCast, h10]
  push_cast
  rw [mul_comm (a : ℚ), mul_div_mul_left _ _ (pow_ne_zero k (by norm_num))]

variable {digits digits' scale scale' : ℤ}

lemma value_inj (scale : ℤ) : value digits scale = value digits' scale ↔ digits = digits' := by
  unfold value
  rw [mul_left_inj' (zpow_ne_zero _ (by norm_num))]
  exact Int.cast_inj

lemma value_eq_zero : value digits scale = 0 ↔ digits = 0 := by rw [← value_zero scale, value_inj]

/-- Between two decimals of one value the one with the greater scale has zeros to drop. -/
lemma digits_of_value_eq (h : value digits scale = value digits' scale') (hle : scale ≤ scale') :
    digits' = digits * 10 ^ (scale' - scale).toNat := by
  rw [← value_inj scale', ← h, value_mul_pow]
  congr 1
  omega

lemma reduced_unique (hd : ¬ (10 : ℤ) ∣ digits) (hd' : ¬ (10 : ℤ) ∣ digits')
    (h : value digits scale = value digits' scale') : digits = digits' ∧ scale = scale' := by
  have hscale : ∀ d s d' s' : ℤ, ¬ (10 : ℤ) ∣ d' → value d s = value d' s' → s' ≤ s := by
    intro d s d' s' hred hval
    by_contra hlt
    apply hred
    rw [digits_of_value_eq hval (by omega)]
    obtain ⟨k, hk⟩ : ∃ k, (s' - s).toNat = k + 1 := ⟨(s' - s).toNat - 1, by omega⟩
    rw [hk, pow_succ, ← mul_assoc]
    exact Int.dvd_mul_left _ _
  have heq : scale = scale' := le_antisymm (hscale _ _ _ _ hd h.symm) (hscale _ _ _ _ hd' h)
  subst heq
  exact ⟨(value_inj scale).1 h, rfl⟩

lemma stripZeros_value (k : ℕ) (digits scale : ℤ) :
    value (stripZeros k digits scale).1 (stripZeros k digits scale).2 = value digits scale := by
  induction k generalizing digits scale with
  | zero => rfl
  | succ k ih =>
    unfold stripZeros
    split
    · rw [ih, ← value_mul_ten]
      congr 1
      omega
    · rfl

lemma stripZeros_reduced {k : ℕ} (scale : ℤ) (h0 : digits ≠ 0) (hk : digits.natAbs ≤ k) :
    ¬ (10 : ℤ) ∣ (stripZeros k digits scale).1 := by
  induction k generalizing digits scale with
  | zero => omega
  | succ k ih =>
    unfold stripZeros
    split
    · exact ih (scale - 1) (by omega) (by omega)
    · omega

lemma normalized_value (digits scale : ℤ) :
    value (normalized digits scale).1 (normalized digits scale).2 = value digits scale := by
  unfold normalized
  split
  · rename_i h
    rw [h, value_zero, value_zero]
  · exact stripZeros_value _ _ _

lemma normalized_reduced (scale : ℤ) (h0 : digits ≠ 0) :
    ¬ (10 : ℤ) ∣ (normalized digits scale).1 := by
  rw [normalized, if_neg h0]
  exact stripZeros_reduced scale h0 le_rfl

/-- **The normalized form depends on the value only.** -/
lemma normalized_unique (h : value digits scale = value digits' scale') :
    normalized digits scale = normalized digits' scale' := by
  by_cases h0 : digits = 0
  · have h0' : digits' = 0 := by
      rw [h0, value_zero] at h
      exact value_eq_zero.1 h.symm
    rw [normalized, normalized, if_pos h0, if_pos h0']
  · have h0' : digits' ≠ 0 := by
      intro hz
      rw [hz, value_zero] at h
      exact h0 (value_eq_zero.1 h)
    have hval : value (normalized digits scale).1 (normalized digits scale).2 =
        value (normalized digits' scale').1 (normalized digits' scale').2 := by
      rw [normalized_value, normalized_value, h]
    obtain ⟨h₁, h₂⟩ := reduced_unique (normalized_reduced scale h0) (normalized_reduced scale' h0')
      hval
    exact Prod.ext h₁ h₂

lemma normalized_int (n : ℤ) : (normalized n 0).2 ≤ 0 := by
  have hle : ∀ (k : ℕ) (d s : ℤ), (stripZeros k d s).2 ≤ s := by
    intro k
    induction k with
    | zero => intro d s; exact le_rfl
    | succ k ih =>
      intro d s
      unfold stripZeros
      split
      · exact le_trans (ih _ _) (by omega)
      · exact le_rfl
  unfold normalized
  split
  · exact le_rfl
  · exact hle _ _ _

lemma withScaleZero_normalized (n : ℤ) :
    withScaleZero (normalized n 0).1 (normalized n 0).2 = n := by
  have hle := normalized_int n
  rw [withScaleZero, if_pos hle, ← value_inj 0, value_mul_pow, ← normalized_value n 0]
  congr 1
  omega

end Fluree.Lib.Decimal

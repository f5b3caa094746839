import Fluree.Core.Flake
import Mathlib.Tactic.Positivity

/-!
# Packed coordinates survive decoding

* `F64.near_ofRat`: rounding a number of at most `2^j` moves it by at most `2^(j-53)`;
* `F64.value_ofRat_le`: rounding does not pass an integer.
-/

namespace Fluree

open F64 Nat

namespace F64

lemma roundHalfEven_near (hx : 0 ≤ x) : |(roundHalfEven x : ℚ) - x| ≤ 1 / 2 := by
  have h1 : (⌊x⌋₊ : ℚ) ≤ x := floor_le hx
  have h2 : x < ⌊x⌋₊ + 1 := lt_floor_add_one x
  rw [abs_le]
  simp only [roundHalfEven]
  split_ifs <;> push_cast <;> constructor <;> linarith

variable {j : ℕ} {q : ℚ}

lemma roundHalfEven_le {x : ℚ} (h : x ≤ j) : roundHalfEven x ≤ j := by
  have hfloor : ⌊x⌋₊ ≤ j := floor_le_of_le h
  rcases eq_or_lt_of_le hfloor with heq | hlt
  · have hpart : x - (⌊x⌋₊ : ℚ) < 1 / 2 := by rw [heq]; linarith
    simp only [roundHalfEven, if_pos hpart]
    exact hfloor
  · simp only [roundHalfEven]
    split_ifs <;> omega

lemma le_roundHalfEven (h : (j : ℚ) ≤ x) : j ≤ roundHalfEven x := by
  have hfloor : j ≤ ⌊x⌋₊ := le_floor h
  simp only [roundHalfEven]
  split_ifs <;> omega

/-- The number that a fraction of `k` units at exponent field `n` denotes; a fraction of `2^53`
is the carry into the next exponent. -/
lemma scaled_of_parts {n k : ℕ} (hk : k ≤ 2 ^ 53) (hn : n = 0 ∨ 2 ^ 52 ≤ k) (hlt : n < 2000)
    {x : F64} {sign : ℕ} (hs : sign = 0 ∨ sign = 1)
    (hx : x.bits.toNat = sign * 2 ^ 63 + (n * 2 ^ 52 + k)) :
    x.scaled = (if sign = 1 then -1 else 1) * (k * 2 ^ n : ℕ) ∧ x.isFinite := by
  have hexp : x.exponent = (n * 2 ^ 52 + k) / 2 ^ 52 := by
    rw [exponent, hx]; rcases hs with rfl | rfl <;> omega
  have hfrac : x.fraction = k % 2 ^ 52 := by rw [fraction, hx]; rcases hs with rfl | rfl <;> omega
  have hneg : x.negative = decide (sign = 1) := by
    rw [negative, hx, decide_eq_decide]
    rcases hs with rfl | rfl <;> omega
  have hmag : (if x.exponent = 0 then x.fraction
      else (2 ^ 52 + x.fraction) * 2 ^ (x.exponent - 1)) = k * 2 ^ n := by
    rw [hexp, hfrac]
    rcases lt_or_ge k (2 ^ 52) with h | h
    · obtain rfl : n = 0 := hn.resolve_right (by omega)
      rw [if_pos (by omega), mod_eq_of_lt h, pow_zero, mul_one]
    · rcases lt_or_ge k (2 ^ 53) with h' | h'
      · have he : (n * 2 ^ 52 + k) / 2 ^ 52 = n + 1 := by omega
        have hf : k % 2 ^ 52 = k - 2 ^ 52 := by omega
        rw [he, hf, if_neg (by omega), Nat.add_sub_cancel, Nat.add_sub_of_le h]
      · obtain rfl : k = 2 ^ 53 := by omega
        have he : (n * 2 ^ 52 + 2 ^ 53) / 2 ^ 52 = n + 2 := by omega
        rw [he, if_neg (by omega), Nat.add_sub_assoc (by omega)]
        ring
  constructor
  · rw [scaled, hmag, hneg]
    rcases hs with rfl | rfl <;> simp
  · rw [isFinite, hexp, bne_iff_ne]
    omega

private lemma two_zpow_pos (e : ℤ) : (0 : ℚ) < 2 ^ e := zpow_pos (by norm_num) e

/-- The rounded magnitude. -/
private def units (m : ℚ) : ℕ := roundHalfEven (m / 2 ^ (exponentOf m - 52))

private lemma exponentOf_le (h0 : 0 < m) (h : m ≤ 2 ^ j) : exponentOf m ≤ j := by
  have hlog : Int.log 2 m ≤ Int.log 2 ((2 : ℕ) ^ (j : ℤ) : ℚ) :=
    Int.log_mono_right h0 (by exact_mod_cast h)
  rw [Int.log_zpow (by norm_num)] at hlog
  rw [exponentOf]
  omega

private lemma units_le (m : ℚ) : units m ≤ 2 ^ 53 := by
  apply roundHalfEven_le
  have hlog : m < (2 : ℕ) ^ (Int.log 2 m + 1) := Int.lt_zpow_succ_log_self (by norm_num) m
  have hle : ((2 : ℕ) : ℚ) ^ (Int.log 2 m + 1) ≤ (2 : ℕ) ^ (exponentOf m + 1) :=
    zpow_le_zpow_right₀ (by norm_num) (by rw [exponentOf]; omega)
  have hsplit : ((2 : ℕ) : ℚ) ^ (exponentOf m + 1) = 2 ^ 53 * 2 ^ (exponentOf m - 52) := by
    rw [← zpow_natCast (2 : ℚ) 53, ← zpow_add₀ (by norm_num)]
    push_cast
    ring_nf
  rw [div_le_iff₀ (two_zpow_pos _)]
  push_cast at *
  linarith

private lemma le_units (h0 : 0 < m) : (exponentOf m + 1022).toNat = 0 ∨ 2 ^ 52 ≤ units m := by
  rcases lt_or_ge (Int.log 2 m) (-1022) with h | h
  · left
    rw [exponentOf]
    omega
  · right
    have he : exponentOf m = Int.log 2 m := by rw [exponentOf]; omega
    have hlog : ((2 : ℕ) : ℚ) ^ Int.log 2 m ≤ m := Int.zpow_log_le_self (by norm_num) h0
    have hsplit : (2 : ℚ) ^ Int.log 2 m = 2 ^ 52 * 2 ^ (Int.log 2 m - 52) := by
      rw [← zpow_natCast (2 : ℚ) 52, ← zpow_add₀ (by norm_num)]
      push_cast
      ring_nf
    rw [units, he]
    apply le_roundHalfEven
    rw [le_div_iff₀ (two_zpow_pos _)]
    push_cast at *
    linarith

private lemma value_of_scaled {x : F64} {m : ℚ} {s : ℤ}
    (h : x.scaled = s * ((units m * 2 ^ (exponentOf m + 1022).toNat : ℕ) : ℤ)) :
    x.value = s * (units m * 2 ^ (exponentOf m - 52)) := by
  have he : -1022 ≤ exponentOf m := le_max_right _ _
  have hpow : (2 : ℚ) ^ (exponentOf m + 1022).toNat = 2 ^ (exponentOf m - 52) * 2 ^ 1074 := by
    rw [← zpow_natCast, ← zpow_natCast (2 : ℚ) 1074, ← zpow_add₀ (by norm_num)]
    congr 1
    push_cast
    omega
  rw [value, h]
  push_cast
  rw [hpow]
  field_simp

private lemma value_ofRat (hq : q ≠ 0) (h : |q| ≤ 2 ^ 900) :
    (ofRat q).value = (if q < 0 then -1 else 1) * (units |q| * 2 ^ (exponentOf |q| - 52)) ∧
      (ofRat q).isFinite := by
  have h0 : 0 < |q| := abs_pos.2 hq
  have he : exponentOf |q| ≤ 900 := exponentOf_le h0 h
  have hlow : -1022 ≤ exponentOf |q| := le_max_right _ _
  have hk := units_le |q|
  have hbits : magnitudeBits |q| = (exponentOf |q| + 1022).toNat * 2 ^ 52 + units |q| := by
    rw [magnitudeBits, if_neg h0.ne']
    exact min_eq_right (by simp only [units] at hk; omega)
  rcases lt_or_ge q 0 with hneg | hpos
  · have habs : -q = |q| := (abs_of_neg hneg).symm
    have hx : (ofRat q).bits.toNat
        = 1 * 2 ^ 63 + ((exponentOf |q| + 1022).toNat * 2 ^ 52 + units |q|) := by
      rw [ofRat, if_pos hneg, habs, hbits]
      simp only [UInt64.toNat_ofNat']
      omega
    obtain ⟨hs, hf⟩ := scaled_of_parts hk (le_units h0) (by omega) (.inr rfl) hx
    rw [if_pos rfl] at hs
    refine ⟨?_, hf⟩
    rw [value_of_scaled hs, if_pos hneg]
    norm_num
  · have habs : |q| = q := abs_of_nonneg hpos
    have hx : (ofRat q).bits.toNat
        = 0 * 2 ^ 63 + ((exponentOf |q| + 1022).toNat * 2 ^ 52 + units |q|) := by
      have hof : ofRat q = ⟨UInt64.ofNat (magnitudeBits |q|)⟩ := by
        rw [ofRat, if_neg (not_lt.2 hpos), habs]
      rw [hof, hbits]
      simp only [UInt64.toNat_ofNat']
      omega
    obtain ⟨hs, hf⟩ := scaled_of_parts hk (le_units h0) (by omega) (.inl rfl) hx
    rw [if_neg (by omega)] at hs
    refine ⟨?_, hf⟩
    rw [value_of_scaled hs, if_neg (not_lt.2 hpos)]
    norm_num

lemma ofRat_zero : (ofRat 0).value = 0 ∧ (ofRat 0).isFinite := by
  have h : ofRat 0 = ⟨0⟩ := rfl
  rw [h]
  decide +kernel

lemma isFinite_ofRat (hj : j ≤ 52) (h : |q| ≤ 2 ^ j) : (ofRat q).isFinite := by
  rcases eq_or_ne q 0 with rfl | hq
  · exact ofRat_zero.2
  · exact (value_ofRat hq (h.trans (pow_le_pow_right₀ (by norm_num) (by omega)))).2

/-- **Rounding moves a number of at most `2^j` by at most `2^(j-53)`.** -/
lemma near_ofRat (hj : j ≤ 52) (h : |q| ≤ 2 ^ j) :
    |(ofRat q).value - q| ≤ 2 ^ ((j : ℤ) - 53) := by
  rcases eq_or_ne q 0 with rfl | hq
  · rw [ofRat_zero.1, sub_zero, abs_zero]
    exact (two_zpow_pos _).le
  have h0 : 0 < |q| := abs_pos.2 hq
  have hv := (value_ofRat hq (h.trans (pow_le_pow_right₀ (by norm_num) (by omega)))).1
  have hu : (0 : ℚ) < 2 ^ (exponentOf |q| - 52) := two_zpow_pos _
  have hround : |(units |q| : ℚ) * 2 ^ (exponentOf |q| - 52) - (|q|)| ≤ 2 ^ (exponentOf |q| - 53) := by
    have hnear := roundHalfEven_near (x := |q| / 2 ^ (exponentOf |q| - 52))
      (div_nonneg h0.le hu.le)
    have heq : (units |q| : ℚ) * 2 ^ (exponentOf |q| - 52) - |q|
        = ((units |q| : ℚ) - |q| / 2 ^ (exponentOf |q| - 52)) * 2 ^ (exponentOf |q| - 52) := by
      field_simp
    have hhalf : (2 : ℚ) ^ (exponentOf |q| - 53) = 1 / 2 * 2 ^ (exponentOf |q| - 52) := by
      rw [show exponentOf |q| - 53 = -1 + (exponentOf |q| - 52) by ring, zpow_add₀ (by norm_num)]
      norm_num
    rw [heq, abs_mul, abs_of_pos hu, hhalf]
    exact mul_le_mul_of_nonneg_right hnear hu.le
  have hmono : (2 : ℚ) ^ (exponentOf |q| - 53) ≤ 2 ^ ((j : ℤ) - 53) :=
    zpow_le_zpow_right₀ (by norm_num) (by have := exponentOf_le h0 h; omega)
  refine le_trans (le_of_eq ?_) (hround.trans hmono)
  rw [hv]
  rcases lt_or_ge q 0 with hneg | hpos
  · rw [if_pos hneg, abs_of_neg hneg, ← abs_neg]
    congr 1
    ring
  · rw [if_neg (not_lt.2 hpos), abs_of_nonneg hpos, one_mul]

/-- **Rounding does not pass an integer.** -/
lemma value_ofRat_le (h : |q| ≤ 2 ^ 52) {c : ℕ} (hc : |q| ≤ c) : |(ofRat q).value| ≤ c := by
  rcases eq_or_ne q 0 with rfl | hq
  · rw [ofRat_zero.1, abs_zero]
    exact cast_nonneg c
  have h0 : 0 < |q| := abs_pos.2 hq
  have hv := (value_ofRat hq (h.trans (pow_le_pow_right₀ (by norm_num) (by omega)))).1
  have he : exponentOf |q| ≤ 52 := exponentOf_le h0 h
  -- at this size the unit divides every integer
  have hunit : (2 : ℚ) ^ (52 - exponentOf |q|).toNat * 2 ^ (exponentOf |q| - 52) = 1 := by
    rw [← zpow_natCast, ← zpow_add₀ (by norm_num)]
    have hexp : ((52 - exponentOf |q|).toNat : ℤ) + (exponentOf |q| - 52) = 0 := by omega
    rw [hexp, zpow_zero]
  have hle : units |q| ≤ c * 2 ^ (52 - exponentOf |q|).toNat := by
    apply roundHalfEven_le
    rw [div_le_iff₀ (two_zpow_pos _)]
    push_cast
    rw [mul_assoc, hunit, mul_one]
    exact hc
  have hmag : (units |q| : ℚ) * 2 ^ (exponentOf |q| - 52) ≤ c := by
    have hcast : (units |q| : ℚ) ≤ c * 2 ^ (52 - exponentOf |q|).toNat := by exact_mod_cast hle
    calc (units |q| : ℚ) * 2 ^ (exponentOf |q| - 52)
        ≤ c * 2 ^ (52 - exponentOf |q|).toNat * 2 ^ (exponentOf |q| - 52) :=
          mul_le_mul_of_nonneg_right hcast (two_zpow_pos _).le
      _ = c := by rw [mul_assoc, hunit, mul_one]
  have hnonneg : (0 : ℚ) ≤ units |q| * 2 ^ (exponentOf |q| - 52) :=
    mul_nonneg (cast_nonneg _) (two_zpow_pos _).le
  rw [hv, abs_mul, abs_of_nonneg hnonneg]
  split_ifs <;> simpa using hmag

lemma value_ofRat_nonneg (h : |q| ≤ 2 ^ 52) (hq : 0 ≤ q) : 0 ≤ (ofRat q).value := by
  rcases hq.eq_or_lt with rfl | hpos
  · exact ofRat_zero.1.ge
  have hv := (value_ofRat hpos.ne' (h.trans (pow_le_pow_right₀ (by norm_num) (by omega)))).1
  rw [hv, if_neg (not_lt.2 hq), one_mul]
  exact mul_nonneg (cast_nonneg _) (two_zpow_pos _).le

/-- What the rounding of a number between `0` and an integer below `2^j` can be. -/
lemma ofRat_between {c : ℕ} (hj : j ≤ 52) (hcj : c ≤ 2 ^ j) (h0 : 0 ≤ q) (hc : q ≤ c) :
    0 ≤ (ofRat q).value ∧ (ofRat q).value ≤ c ∧ |(ofRat q).value - q| ≤ 2 ^ ((j : ℤ) - 53) := by
  have habs : |q| = q := abs_of_nonneg h0
  have hcj' : (c : ℚ) ≤ 2 ^ j := by exact_mod_cast hcj
  have hq : |q| ≤ 2 ^ j := by rw [habs]; linarith
  have hq52 : |q| ≤ 2 ^ 52 := hq.trans (pow_le_pow_right₀ (by norm_num) hj)
  refine ⟨value_ofRat_nonneg hq52 h0, ?_, near_ofRat hj hq⟩
  exact (le_abs_self _).trans (value_ofRat_le hq52 (by rw [habs]; exact hc))

end F64

section Coordinates

variable {half encoded : ℕ}

/-- The decoded coordinate lies in its range, within `2^-42` of the exact one. -/
lemma decodeCoordinate_near (hh : half ≤ 180) (he : encoded ≤ GEO_MAX_ENCODED) :
    |(decodeCoordinate half encoded).value| ≤ half ∧ (decodeCoordinate half encoded).isFinite ∧
      |(decodeCoordinate half encoded).value
        - ((encoded : ℚ) / GEO_MAX_ENCODED * (2 * half : ℕ) - half)| ≤ 2 ^ (-42 : ℤ) := by
  have hM : (0 : ℚ) < GEO_MAX_ENCODED := by norm_num [GEO_MAX_ENCODED]
  have hh' : (half : ℚ) ≤ 180 := by exact_mod_cast hh
  have hx1 : (encoded : ℚ) / GEO_MAX_ENCODED ≤ (1 : ℕ) := by
    rw [div_le_iff₀ hM]
    push_cast
    linarith [show (encoded : ℚ) ≤ GEO_MAX_ENCODED by exact_mod_cast he]
  obtain ⟨ha0, _, ha⟩ := ofRat_between (j := 0) (by norm_num) (by norm_num)
    (div_nonneg (cast_nonneg encoded) hM.le) hx1
  simp only [decodeCoordinate]
  set a := (F64.ofRat ((encoded : ℚ) / GEO_MAX_ENCODED)).value
  have hspan : (((2 * half : ℕ) : ℚ)) ≤ 360 := by push_cast; linarith
  have hspan0 : (0 : ℚ) ≤ ((2 * half : ℕ) : ℚ) := cast_nonneg _
  obtain ⟨_, _, _⟩ := ofRat_between (q := a * (2 * half : ℕ)) (c := 2 * half) (j := 9)
    (by norm_num) (by omega) (mul_nonneg ha0 hspan0) (by push_cast at *; nlinarith)
  set b := (F64.ofRat (a * (2 * half : ℕ))).value
  have hdiff : |b - half| ≤ (half : ℕ) := by
    rw [abs_le]
    push_cast at *
    constructor <;> linarith
  have hdiff8 : |b - half| ≤ 2 ^ 8 := by linarith
  refine ⟨value_ofRat_le (hdiff8.trans (by norm_num)) hdiff,
    isFinite_ofRat (by norm_num) hdiff8, ?_⟩
  have hc := near_ofRat (by norm_num) hdiff8
  have hprod : |a * (2 * half : ℕ) - (encoded : ℚ) / GEO_MAX_ENCODED * (2 * half : ℕ)|
      ≤ 2 ^ (-44 : ℤ) := by
    rw [← sub_mul, abs_mul, abs_of_nonneg hspan0]
    have hmul := mul_le_mul ha hspan hspan0 (by positivity)
    linarith
  rw [abs_le] at *
  norm_num at *
  constructor <;> linarith

lemma inRange_of_abs_le {x : F64} (h : |x.value| ≤ half) (hf : x.isFinite) :
    inRange half x = true := by
  obtain ⟨h1, h2⟩ := abs_le.1 h
  rw [inRange, hf, decide_eq_true h1, decide_eq_true h2]
  rfl

lemma encodeCoordinate_of_near {x : F64} (h1 : 1 ≤ half) (hh : half ≤ 180) (hx : |x.value| ≤ half)
    (hnear : |x.value - ((encoded : ℚ) / GEO_MAX_ENCODED * (2 * half : ℕ) - half)|
      ≤ 2 ^ (-42 : ℤ)) : encodeCoordinate half x = encoded := by
  have hh' : (half : ℚ) ≤ 180 := by exact_mod_cast hh
  have h1' : (1 : ℚ) ≤ half := by exact_mod_cast h1
  have hM : ((GEO_MAX_ENCODED : ℕ) : ℚ) = 2 ^ 30 - 1 := by norm_num [GEO_MAX_ENCODED]
  have hx' := abs_le.1 hx
  obtain ⟨hd0, _, _⟩ := ofRat_between (q := x.value + half) (c := 2 * half) (j := 9)
    (by norm_num) (by omega) (by linarith) (by push_cast; linarith)
  set d := (F64.ofRat (x.value + half)).value
  have hspan0 : (0 : ℚ) < ((2 * half : ℕ) : ℚ) := by push_cast; linarith
  obtain ⟨hn0, _, _⟩ := ofRat_between (q := d / (2 * half : ℕ)) (c := 1) (j := 0)
    (by norm_num) (by norm_num) (div_nonneg hd0 hspan0.le)
    (by rw [div_le_iff₀ hspan0]; push_cast at *; linarith)
  set n := (F64.ofRat (d / (2 * half : ℕ))).value
  obtain ⟨_, -, _⟩ := ofRat_between (q := n * GEO_MAX_ENCODED) (c := 2 ^ 30) (j := 30)
    (by norm_num) le_rfl (mul_nonneg hn0 (cast_nonneg _))
    (by rw [hM]; push_cast at *; nlinarith)
  set m := (F64.ofRat (n * GEO_MAX_ENCODED)).value
  -- the exact fraction, times the scale, is the encoded number
  set frac : ℚ := (encoded : ℚ) / GEO_MAX_ENCODED
  have hfrac : frac * GEO_MAX_ENCODED = encoded := by
    rw [div_mul_cancel₀]
    norm_num [GEO_MAX_ENCODED]
  have hdf : |d - frac * (2 * half : ℕ)| ≤ 2 ^ (-41 : ℤ) := by
    rw [abs_le] at *
    norm_num at *
    constructor <;> linarith
  have hnf : |n - frac| ≤ 2 ^ (-40 : ℤ) := by
    have hdiv : |d / (2 * half : ℕ) - frac| ≤ 2 ^ (-41 : ℤ) := by
      have hsplit : d / (2 * half : ℕ) - frac = (d - frac * (2 * half : ℕ)) / (2 * half : ℕ) := by
        field_simp
      rw [hsplit, abs_div, abs_of_pos hspan0, div_le_iff₀ hspan0]
      have hone : (1 : ℚ) ≤ ((2 * half : ℕ) : ℚ) := by push_cast; linarith
      have hpos : (0 : ℚ) < 2 ^ (-41 : ℤ) := by norm_num
      nlinarith
    rw [abs_le] at *
    norm_num at *
    constructor <;> linarith
  have hmf : |m - encoded| < 1 / 2 := by
    have hmul : |n * GEO_MAX_ENCODED - encoded| ≤ 2 ^ (-10 : ℤ) := by
      rw [← hfrac, ← sub_mul, abs_mul, hM, abs_of_pos (by norm_num : (0 : ℚ) < 2 ^ 30 - 1)]
      norm_num at *
      linarith
    rw [abs_lt]
    rw [abs_le] at *
    norm_num at *
    constructor <;> linarith
  rw [abs_lt] at hmf
  refine (floor_eq_iff (by linarith)).2 ⟨by linarith, by linarith⟩

end Coordinates

/-- **Packing decoded coordinates again gives the 60 bits they came from.** -/
lemma encodeGeoPoint_decodeGeoPoint (bits : UInt64) :
    encodeGeoPoint (decodeGeoPoint bits).1 (decodeGeoPoint bits).2
      = some (UInt64.ofNat (bits.toNat % 2 ^ 60)) := by
  have hlat : bits.toNat / 2 ^ 30 % 2 ^ 30 ≤ GEO_MAX_ENCODED := by rw [GEO_MAX_ENCODED]; omega
  have hlng : bits.toNat % 2 ^ 30 ≤ GEO_MAX_ENCODED := by rw [GEO_MAX_ENCODED]; omega
  obtain ⟨ha, hfa, hna⟩ := @decodeCoordinate_near 90 _ (by norm_num) hlat
  obtain ⟨ho, hfo, hno⟩ := @decodeCoordinate_near 180 _ (by norm_num) hlng
  have hra : inRange 90 (decodeGeoPoint bits).1 = true := inRange_of_abs_le ha hfa
  have hro : inRange 180 (decodeGeoPoint bits).2 = true := inRange_of_abs_le ho hfo
  have hea := encodeCoordinate_of_near (by norm_num) (by norm_num) ha hna
  have heo := encodeCoordinate_of_near (by norm_num) (by norm_num) ho hno
  rw [encodeGeoPoint, hra, hro]
  simp only [decodeGeoPoint, hea, heo, Bool.not_true, Bool.false_eq_true, if_false]
  have hor : bits.toNat / 2 ^ 30 % 2 ^ 30 * 2 ^ 30 ||| bits.toNat % 2 ^ 30
      = bits.toNat / 2 ^ 30 % 2 ^ 30 * 2 ^ 30 + bits.toNat % 2 ^ 30 := by
    rw [← shiftLeft_eq, shiftLeft_add_eq_or_of_lt (by omega)]
  rw [hor]
  congr 2
  omega

end Fluree

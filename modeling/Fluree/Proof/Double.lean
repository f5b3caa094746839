import Fluree.Core.Value
import Fluree.Lib.Slices
import Mathlib.Tactic.Positivity

/-!
# The order of doubles

Two doubles that are no NaN are ordered by `scaled`, infinities included
(`cmpF64_of_not_nan`); a comparison with a NaN goes by the bits (`cmpF64_of_nan`). A NaN of
positive sign lies above every number of positive sign and below every number of negative
sign, so it closes a cycle with one of each (`Straddled`). That is the only way in which
three doubles fail to be ordered (`cmpF64_chain`).
-/

namespace Fluree

open Bool F64

lemma compare_uint64 (a b : UInt64) : compare a b = compare a.toNat b.toNat := by
  simp [compare, compareOfLessAndEq, UInt64.lt_iff_toNat_lt, UInt64.toNat_inj]

/-! ## Exact numbers as rationals -/

namespace Exact

def toRat (a : Exact) : ℚ := a.num / a.den

lemma cmp_eq_compare {a b : Exact} (ha : 0 < a.den) (hb : 0 < b.den) :
    a.cmp b = compare a.toRat b.toRat := by
  have hlt : ∀ x y : Exact, 0 < x.den → 0 < y.den →
      (x.num * y.den < y.num * x.den ↔ x.toRat < y.toRat) := by
    intro x y hx hy
    have hx' : (0 : ℚ) < x.den := by exact_mod_cast hx
    have hy' : (0 : ℚ) < y.den := by exact_mod_cast hy
    unfold toRat
    rw [div_lt_div_iff₀ hx' hy']
    exact_mod_cast Iff.rfl
  unfold cmp
  rcases lt_trichotomy a.toRat b.toRat with h | h | h
  · rw [compare_lt_iff_lt.2 h, compare_lt_iff_lt.2 ((hlt a b ha hb).2 h)]
  · have h1 := (hlt a b ha hb).not.2 h.not_lt
    have h2 := (hlt b a hb ha).not.2 h.not_gt
    rw [compare_eq_iff_eq.2 h, compare_eq_iff_eq.2 (le_antisymm (not_lt.1 h2) (not_lt.1 h1))]
  · rw [compare_gt_iff_gt.2 h, compare_gt_iff_gt.2 ((hlt b a hb ha).2 h)]

lemma cmp_same_den (a b : ℤ) (hd : 0 < d) : cmp ⟨a, d⟩ ⟨b, d⟩ = compare a b := by
  have hd' : (0 : ℤ) < d := by exact_mod_cast hd
  unfold cmp
  rcases lt_trichotomy a b with h | h | h
  · rw [compare_lt_iff_lt.2 h]
    exact compare_lt_iff_lt.2 ((Int.mul_lt_mul_right hd').2 h)
  · subst h
    simp
  · rw [compare_gt_iff_gt.2 h]
    exact compare_gt_iff_gt.2 ((Int.mul_lt_mul_right hd').2 h)

lemma ofDecimal_den_pos (digits scale : ℤ) : 0 < (ofDecimal digits scale).den := by
  unfold ofDecimal
  split
  · exact Nat.pow_pos (by decide)
  · exact Nat.one_pos

end Exact

/-! ## The bits of a double -/

namespace F64

lemma exponent_lt (x : F64) : x.exponent < 2048 := Nat.mod_lt _ (by decide)

lemma fraction_lt (x : F64) : x.fraction < 2 ^ 52 := Nat.mod_lt _ (by decide)

lemma toNat_bits (x : F64) :
    x.bits.toNat = x.negative.toNat * 2 ^ 63 + x.exponent * 2 ^ 52 + x.fraction := by
  have hlt := x.bits.toNat_lt
  unfold negative exponent fraction
  by_cases h : x.bits.toNat ≥ 2 ^ 63
  · simp only [h, decide_true, toNat_true]; omega
  · simp only [h, decide_false, toNat_false]; omega

variable {x y : F64}

lemma eq_of_toNat_bits (h : x.bits.toNat = y.bits.toNat) : x = y := by
  cases x
  cases y
  exact congrArg F64.mk (UInt64.toNat_inj.1 h)

lemma isNan_iff : x.isNan = true ↔ x.exponent = 2047 ∧ x.fraction ≠ 0 := by simp [isNan]

lemma isInfinite_iff : x.isInfinite = true ↔ x.exponent = 2047 ∧ x.fraction = 0 := by
  simp [isInfinite]

/-- The absolute value in units of `2^(-1074)`. An infinity has the one its bits spell out. -/
def magnitude (x : F64) : ℕ :=
  if x.exponent = 0 then x.fraction else (2 ^ 52 + x.fraction) * 2 ^ (x.exponent - 1)

/-- Where the numbers of exponent `e + 1` start, in the same units. -/
def binade (e : ℕ) : ℕ := 2 ^ 52 * 2 ^ e

lemma lt_binade_of_fraction (hf : f < 2 ^ 52) (e : ℕ) : f < binade e :=
  lt_of_lt_of_le hf (Nat.le_mul_of_pos_right _ (Nat.two_pow_pos e))

lemma lt_binade_of_significand (hf : f < 2 ^ 52) (hpos : 0 < e) (he : e ≤ top) :
    (2 ^ 52 + f) * 2 ^ (e - 1) < binade top := by
  obtain ⟨k, rfl⟩ : ∃ k, e = k + 1 := ⟨e - 1, by omega⟩
  calc (2 ^ 52 + f) * 2 ^ k
      < (2 ^ 52 + 2 ^ 52) * 2 ^ k := Nat.mul_lt_mul_of_pos_right (by omega) (Nat.two_pow_pos k)
    _ = 2 ^ 52 * 2 ^ (k + 1) := by ring
    _ ≤ 2 ^ 52 * 2 ^ top := Nat.mul_le_mul_left _ (Nat.pow_le_pow_right (by decide) he)

lemma binade_le_significand (f : ℕ) : binade e ≤ (2 ^ 52 + f) * 2 ^ e :=
  Nat.mul_le_mul_right _ (Nat.le_add_right _ _)

lemma magnitude_eq_binade (he : x.exponent = e + 1) (hf : x.fraction = 0) :
    x.magnitude = binade e := by
  unfold magnitude binade
  rw [if_neg (by omega), he, hf]
  rfl

/-- The absolute value that the bits of an infinity spell out. -/
def beyond : ℕ := binade 2046

lemma scaled_eq (x : F64) : x.scaled = if x.negative then -(x.magnitude : ℤ) else x.magnitude :=
  rfl

lemma magnitude_lt (h : x.exponent ≠ 2047) : x.magnitude < beyond := by
  have hf := x.fraction_lt
  have he := x.exponent_lt
  unfold magnitude
  split
  · exact lt_binade_of_fraction hf 2046
  · exact lt_binade_of_significand hf (by omega) (by omega)

lemma exponent_le_of_magnitude (h : x.magnitude ≤ y.magnitude) : x.exponent ≤ y.exponent := by
  by_contra hlt
  have hx : binade (x.exponent - 1) ≤ x.magnitude := by
    unfold magnitude
    rw [if_neg (by omega)]
    exact binade_le_significand _
  have hy : y.magnitude < binade (x.exponent - 1) := by
    unfold magnitude
    split
    · exact lt_binade_of_fraction y.fraction_lt _
    · exact lt_binade_of_significand y.fraction_lt (by omega) (by omega)
  omega

lemma eq_of_magnitude (hsign : x.negative = y.negative) (h : x.magnitude = y.magnitude) :
    x = y := by
  have hexp : x.exponent = y.exponent :=
    le_antisymm (exponent_le_of_magnitude h.le) (exponent_le_of_magnitude h.ge)
  have hfrac : x.fraction = y.fraction := by
    unfold magnitude at h
    rw [hexp] at h
    split at h
    · exact h
    · have := Nat.eq_of_mul_eq_mul_right (Nat.two_pow_pos _) h
      omega
  have hbits : x.bits.toNat = y.bits.toNat := by rw [toNat_bits x, toNat_bits y, hsign, hexp, hfrac]
  exact eq_of_toNat_bits hbits

lemma eq_of_scaled (h : x.scaled = y.scaled) (h0 : x.scaled ≠ 0) : x = y := by
  rw [scaled_eq] at h h0
  rw [scaled_eq] at h
  cases hx : x.negative <;> cases hy : y.negative <;> rw [hx] at h h0 <;> rw [hy] at h <;>
    simp only [false_eq_true, if_false, if_true] at h h0
  · exact eq_of_magnitude (hx.trans hy.symm) (by omega)
  · omega
  · omega
  · exact eq_of_magnitude (hx.trans hy.symm) (by omega)

lemma isNan_of_scaled_zero (h : x.scaled = 0) : x.isNan = false := by
  have hmag : x.magnitude = 0 := by
    rw [scaled_eq] at h
    split at h <;> omega
  have hexp : x.exponent = 0 := by
    by_contra hne
    unfold magnitude at hmag
    rw [if_neg hne] at hmag
    have := Nat.mul_pos (show 0 < 2 ^ 52 + x.fraction by omega) (Nat.two_pow_pos (x.exponent - 1))
    omega
  simp [isNan, hexp]

lemma scaled_bounds (h : x.exponent ≠ 2047) : -(beyond : ℤ) < x.scaled ∧ x.scaled < beyond := by
  have hlt := magnitude_lt h
  rw [scaled_eq]
  generalize beyond = big at hlt
  split <;> omega

lemma scaled_of_infinite (h : x.isInfinite = true) :
    x.scaled = if x.negative then -(beyond : ℤ) else beyond := by
  obtain ⟨he, hf⟩ := isInfinite_iff.1 h
  have hmag : x.magnitude = beyond := magnitude_eq_binade he hf
  rw [scaled_eq, hmag]

lemma isInfinite_of_exponent (hn : x.isNan = false) (he : x.exponent = 2047) :
    x.isInfinite = true := by
  rw [isInfinite_iff]
  refine ⟨he, ?_⟩
  by_contra hf
  rw [isNan_iff.2 ⟨he, hf⟩] at hn
  cases hn

lemma exponent_ne (hn : x.isNan = false) (hi : x.isInfinite = false) : x.exponent ≠ 2047 := by
  intro he
  rw [isInfinite_of_exponent hn he] at hi
  cases hi

lemma isInfinite_of_finite (he : x.exponent ≠ 2047) : x.isInfinite = false := by
  simp [isInfinite, he]

lemma isNan_of_finite (he : x.exponent ≠ 2047) : x.isNan = false := by simp [isNan, he]

lemma exactValue_of_finite (he : x.exponent ≠ 2047) : x.exactValue = some ⟨x.scaled, 2 ^ 1074⟩ := by
  simp only [exactValue, he, if_false]

/-! ## Comparing two doubles -/

lemma partialCmp_of_not_nan (hx : x.isNan = false) (hy : y.isNan = false) :
    x.partialCmp y = some (compare x.scaled y.scaled) := by
  have hbeyond : (0 : ℤ) < beyond := by exact_mod_cast lt_binade_of_fraction (by decide) 2046
  unfold partialCmp
  rw [hx, hy]
  by_cases hix : x.exponent = 2047
  · rw [exactValue_eq_none.2 hix]
    have hsx := scaled_of_infinite (isInfinite_of_exponent hx hix)
    cases hiy : y.isInfinite with
    | true =>
      have hsy := scaled_of_infinite hiy
      have hcmp : compare y.negative x.negative = compare x.scaled y.scaled := by
        rw [hsx, hsy]
        have hneg : -(beyond : ℤ) < beyond := by omega
        cases x.negative <;> cases y.negative
        · exact (compare_eq_iff_eq.2 rfl).symm
        · exact (compare_gt_iff_gt.2 hneg).symm
        · exact (compare_lt_iff_lt.2 hneg).symm
        · exact (compare_eq_iff_eq.2 rfl).symm
      simp [hcmp]
    | false =>
      obtain ⟨hlo, hhi⟩ := scaled_bounds (exponent_ne hy hiy)
      cases hneg : x.negative with
      | true =>
        rw [hneg, if_pos rfl] at hsx
        simp [compare_lt_iff_lt.2 (hsx ▸ hlo)]
      | false =>
        rw [hneg, if_neg (by decide)] at hsx
        simp [compare_gt_iff_gt.2 (hsx ▸ hhi)]
  · rw [exactValue_of_finite hix]
    simp only [cmpExact, hy, false_eq_true, if_false]
    cases hiy : y.isInfinite with
    | true =>
      have hsy := scaled_of_infinite hiy
      obtain ⟨hlo, hhi⟩ := scaled_bounds hix
      cases hneg : y.negative with
      | true =>
        rw [hneg, if_pos rfl] at hsy
        simp [compare_gt_iff_gt.2 (hsy ▸ hlo)]
      | false =>
        rw [hneg, if_neg (by decide)] at hsy
        simp [compare_lt_iff_lt.2 (hsy ▸ hhi)]
    | false =>
      rw [exactValue_of_finite (exponent_ne hy hiy)]
      have hden : 0 < 2 ^ 1074 := Nat.two_pow_pos _
      simp [Exact.cmp_same_den _ _ hden]

lemma partialCmp_of_nan (h : x.isNan = true ∨ y.isNan = true) : x.partialCmp y = none := by
  unfold partialCmp
  rcases h with h | h <;> simp [h]

lemma scaled_nonneg (h : x.negative = false) : 0 ≤ x.scaled := by
  rw [scaled_eq, h, if_neg (by decide)]
  exact Int.natCast_nonneg _

lemma scaled_nonpos (h : x.negative = true) : x.scaled ≤ 0 := by
  rw [scaled_eq, h, if_pos rfl]
  exact Int.neg_nonpos_of_nonneg (Int.natCast_nonneg _)

lemma toNat_bits_le (h : x.isNan = false) :
    x.bits.toNat ≤ x.negative.toNat * 2 ^ 63 + 2047 * 2 ^ 52 := by
  have hbits := x.toNat_bits
  have he := x.exponent_lt
  have hf := x.fraction_lt
  by_cases hexp : x.exponent = 2047
  · have hzero := (isInfinite_iff.1 (isInfinite_of_exponent h hexp)).2
    omega
  · omega

lemma lt_toNat_bits (h : x.isNan = true) :
    x.negative.toNat * 2 ^ 63 + 2047 * 2 ^ 52 < x.bits.toNat := by
  have hbits := x.toNat_bits
  obtain ⟨_, _⟩ := isNan_iff.1 h
  omega

end F64

namespace FlakeValue

variable {x s : F64}

lemma cmpF64_of_not_nan (hx : x.isNan = false) (hy : y.isNan = false) :
    cmpF64 x y = compare x.scaled y.scaled := by
  rw [cmpF64, partialCmp_of_not_nan hx hy, Option.getD_some]

lemma cmpF64_of_nan (h : x.isNan = true ∨ y.isNan = true) :
    cmpF64 x y = compare x.bits.toNat y.bits.toNat := by
  rw [cmpF64, partialCmp_of_nan h, Option.getD_none, compare_uint64]

lemma cmpF64_swap (x y : F64) : cmpF64 y x = (cmpF64 x y).swap := by
  by_cases h : x.isNan = true ∨ y.isNan = true
  · rw [cmpF64_of_nan h, cmpF64_of_nan h.symm]
    exact Std.OrientedOrd.eq_swap
  · obtain ⟨hx, hy⟩ := not_or.1 h
    rw [not_eq_true] at hx hy
    rw [cmpF64_of_not_nan hx hy, cmpF64_of_not_nan hy hx]
    exact Std.OrientedOrd.eq_swap

/-- A NaN against a number: only a NaN of positive sign is below any, the negative ones. -/
lemma cmpF64_nan_number (hs : s.isNan = true) (hx : x.isNan = false) :
    cmpF64 s x = if !s.negative && x.negative then .lt else .gt := by
  have hsbits := lt_toNat_bits hs
  have hxbits := toNat_bits_le hx
  have hslt : s.negative = false → s.bits.toNat < 2 ^ 63 := by simp [F64.negative]
  have hxge : x.negative = true → 2 ^ 63 ≤ x.bits.toNat := by simp [F64.negative]
  rw [cmpF64_of_nan (.inl hs)]
  cases hsn : s.negative <;> cases hxn : x.negative <;> rw [hsn] at hsbits <;> rw [hxn] at hxbits
  · exact compare_gt_iff_gt.2 (lt_of_le_of_lt hxbits hsbits)
  · exact compare_lt_iff_lt.2 (lt_of_lt_of_le (hslt hsn) (hxge hxn))
  · exact compare_gt_iff_gt.2 (lt_of_le_of_lt (le_trans hxbits (by decide)) hsbits)
  · exact compare_gt_iff_gt.2 (lt_of_le_of_lt hxbits hsbits)

lemma cmpF64_number_nan (hs : s.isNan = true) (hx : x.isNan = false) :
    cmpF64 x s = if !s.negative && x.negative then .gt else .lt := by
  rw [cmpF64_swap s x, cmpF64_nan_number hs hx]
  split <;> rfl

lemma signs_of_nan_le (hs : s.isNan = true) (hx : x.isNan = false) (h : cmpF64 s x ≠ .gt) :
    s.negative = false ∧ x.negative = true := by
  rw [cmpF64_nan_number hs hx] at h
  cases hsn : s.negative <;> cases hxn : x.negative <;> simp [hsn, hxn] at h ⊢

lemma signs_of_nan_lt (hs : s.isNan = true) (hx : x.isNan = false) (h : cmpF64 x s ≠ .lt) :
    s.negative = false ∧ x.negative = true := by
  rw [cmpF64_number_nan hs hx] at h
  cases hsn : s.negative <;> cases hxn : x.negative <;> simp [hsn, hxn] at h ⊢

/-- A NaN of positive sign with a number of each sign: `n` is below it and `m` above it,
although `m` is at most `n`. -/
structure Straddled (n p m : F64) : Prop where
  nan : p.isNan = true
  positive : p.negative = false
  below_number : n.isNan = false
  below_sign : n.negative = false
  above_number : m.isNan = false
  above_sign : m.negative = true

namespace Straddled

variable {n p m : F64}

lemma below (h : Straddled n p m) : cmpF64 n p = .lt := by
  rw [cmpF64_number_nan h.nan h.below_number, h.positive, h.below_sign]
  rfl

lemma above (h : Straddled n p m) : cmpF64 p m = .lt := by
  rw [cmpF64_nan_number h.nan h.above_number, h.positive, h.above_sign]
  rfl

lemma across (h : Straddled n p m) : cmpF64 m n ≠ .gt := by
  have hn := scaled_nonneg h.below_sign
  have hm := scaled_nonpos h.above_sign
  rw [cmpF64_of_not_nan h.above_number h.below_number]
  exact fun hgt => absurd (compare_gt_iff_gt.1 hgt) (not_lt.2 (le_trans hm hn))

end Straddled

/-- **Three doubles in a row.** If `x ≤ y ≤ z` then `x < z`, or all three are equal, or the
three are a NaN of positive sign and a number of each sign. -/
lemma cmpF64_chain (hxy : cmpF64 x y ≠ .gt) (hyz : cmpF64 y z ≠ .gt) :
    (cmpF64 x y = .eq ∧ cmpF64 y z = .eq ∧ cmpF64 x z = .eq) ∨ cmpF64 x z = .lt ∨
      Straddled x y z ∨ Straddled z x y ∨ Straddled y z x := by
  -- two NaNs leave no comparison by value, so the bits decide all three
  have hbits : (x.isNan = true ∨ y.isNan = true) → (y.isNan = true ∨ z.isNan = true) →
      (x.isNan = true ∨ z.isNan = true) →
      (cmpF64 x y = .eq ∧ cmpF64 y z = .eq ∧ cmpF64 x z = .eq) ∨ cmpF64 x z = .lt := by
    intro h1 h2 h3
    rw [cmpF64_of_nan h1] at hxy
    rw [cmpF64_of_nan h2] at hyz
    rw [cmpF64_of_nan h1, cmpF64_of_nan h2, cmpF64_of_nan h3]
    exact Lib.compare_chain hxy hyz
  cases hx : x.isNan <;> cases hy : y.isNan <;> cases hz : z.isNan
  · rw [cmpF64_of_not_nan hx hy] at hxy
    rw [cmpF64_of_not_nan hy hz] at hyz
    rw [cmpF64_of_not_nan hx hy, cmpF64_of_not_nan hy hz, cmpF64_of_not_nan hx hz]
    exact (Lib.compare_chain hxy hyz).imp_right .inl
  · by_cases hlt : cmpF64 x z = .lt
    · exact .inr (.inl hlt)
    obtain ⟨hzn, hxn⟩ := signs_of_nan_lt hz hx hlt
    have hyn : y.negative = false := by
      rw [cmpF64_number_nan hz hy, hzn] at hyz
      simpa using hyz
    exact .inr (.inr (.inr (.inr ⟨hz, hzn, hy, hyn, hx, hxn⟩)))
  · obtain ⟨hyn, hzn⟩ := signs_of_nan_le hy hz hyz
    have hxn : x.negative = false := by
      rw [cmpF64_number_nan hy hx, hyn] at hxy
      simpa using hxy
    exact .inr (.inr (.inl ⟨hy, hyn, hx, hxn, hz, hzn⟩))
  · exact (hbits (.inr hy) (.inl hy) (.inr hz)).imp_right .inl
  · obtain ⟨hxn, hyn⟩ := signs_of_nan_le hx hy hxy
    cases hzn : z.negative with
    | false => exact .inr (.inr (.inr (.inl ⟨hx, hxn, hz, hzn, hy, hyn⟩)))
    | true =>
      rw [cmpF64_nan_number hx hz, hxn, hzn]
      exact .inr (.inl rfl)
  · exact (hbits (.inl hx) (.inr hz) (.inl hx)).imp_right .inl
  all_goals exact (hbits (.inl hx) (.inl hy) (.inl hx)).imp_right .inl

end FlakeValue

end Fluree

import Fluree.Proof.ValueOrder
import Fluree.Novelty.Apply
import Fluree.Novelty.CommitFlakes

/-!
# Equality, hash and order of values
-/

namespace Fluree

section

open Lib List Option Bool Ordering F64 Decimal Exact

lemma Sid.cmp_eq_iff {a b : Sid} : a.cmp b = .eq ↔ a = b := by
  cases a
  cases b
  simp [Sid.cmp, then_eq_eq]

namespace FlakeValue

/-! ## Values that are no numbers -/

variable {a b v : FlakeValue} {x : F64}

lemma eq_of_typeDiscriminant_ne (hnum : a.isNumeric = false)
    (h : a.typeDiscriminant ≠ b.typeDiscriminant) : a.eq b = false := by
  cases a <;> cases b <;> first | rfl | exact absurd rfl h | cases hnum

lemma durationPartialCmp_eq_iff : durationPartialCmp m u m' u' = some .eq ↔ m = m' ∧ u = u' := by
  rw [← compare_eq_iff_eq (a := m), ← compare_eq_iff_eq (a := u)]
  unfold durationPartialCmp
  cases compare m m' <;> cases compare u u' <;> simp

lemma vector_bits_iff (u v : List F64) :
    (u.length == v.length && (u.zip v).all (fun (x, y) => x.bits == y.bits)) = true ↔ u = v := by
  induction u generalizing v with
  | nil => cases v <;> simp
  | cons x u ih =>
    cases v with
    | nil => simp
    | cons y v =>
      have hxy : x.bits = y.bits ↔ x = y := by
        cases x
        cases y
        simp
      have hrest := ih v
      simp only [and_eq_true, beq_iff_eq] at hrest
      simp only [length_cons, zip_cons_cons, all_cons, and_eq_true, beq_iff_eq,
        Nat.add_right_cancel_iff, List.cons.injEq, hxy]
      rw [← hrest]
      exact and_left_comm

lemma eq_iff_of_not_numeric (hnum : a.isNumeric = false) : a.eq b = true ↔ a = b := by
  by_cases h : a.typeDiscriminant = b.typeDiscriminant
  · cases a <;> cases b <;> first
      | (cases hnum; done)
      | (cases h; done)
      | exact (vector_bits_iff _ _).trans ⟨congrArg vector, vector.inj⟩
      | simp [eq, isNumeric, isTemporal, isDuration, temporalCmp, durationPartialCmp_eq_iff]
  · rw [eq_of_typeDiscriminant_ne hnum h]
    exact iff_of_false (by decide) fun hab => h (congrArg typeDiscriminant hab)

lemma rank_eq_of_cmp (h : a.cmp b = .eq) : a.rank = b.rank := by
  by_contra hne
  rw [cmp_of_rank_ne hne] at h
  exact hne (compare_eq_iff_eq.1 h)

lemma cmp_eq_iff_of_plain (hnum : a.isNumeric = false) (hvec : a.isVector = false) :
    a.cmp b = .eq ↔ a = b := by
  constructor
  · intro h
    have hd := typeDiscriminant_eq_of_rank hnum (rank_eq_of_cmp h)
    rw [cmp, if_pos hd] at h
    cases a <;> cases b <;> first
      | (cases hnum; done)
      | (cases hvec; done)
      | (cases hd; done)
      | simp_all [sameTypeCmp, then_eq_eq, Sid.cmp_eq_iff]
  · rintro rfl
    exact cmp_self a

/-! ## Numbers -/

lemma numericCmp_of_same_type (hnum : a.isNumeric = true)
    (h : a.typeDiscriminant = b.typeDiscriminant) : numericCmp a b = some (sameTypeCmp a b) := by
  cases a <;> cases b <;> first | (cases hnum; done) | (cases h; done) | rfl | skip
  rename_i x y
  simp only [numericCmp, sameTypeCmp, cmpF64]
  cases x.partialCmp y <;> rfl

lemma eq_iff_cmp_of_numeric (hnum : a.isNumeric = true) : a.eq b = true ↔ a.cmp b = .eq := by
  cases hb : b.isNumeric with
  | true =>
    have heq : a.eq b = (numericCmp a b == some .eq) := if_pos (by rw [hnum, hb]; rfl)
    rw [heq, beq_iff_eq, cmp]
    by_cases h : a.typeDiscriminant = b.typeDiscriminant
    · rw [if_pos h, numericCmp_of_same_type hnum h, some.injEq]
    rw [if_neg h]
    cases numericCmp a b with
    | none => exact iff_of_false (by simp) fun heq => h (compare_eq_iff_eq.1 heq)
    | some => rw [some.injEq, getD_some]
  | false =>
    have hrank : a.rank ≠ b.rank := fun h => by
      rw [isNumeric_of_rank hnum h] at hb
      cases hb
    have heq : a.eq b = false := by
      cases a <;> cases b <;> first | rfl | (cases hnum; done) | cases hb
    rw [heq]
    exact iff_of_false (by decide) fun h => hrank (rank_eq_of_cmp h)

/-- **Equal means equal in the order**, outside vectors. -/
lemma eq_iff_cmp (hvec : a.isVector = false) : a.eq b = true ↔ a.cmp b = .eq := by
  cases hnum : a.isNumeric with
  | true => exact eq_iff_cmp_of_numeric hnum
  | false => rw [eq_iff_of_not_numeric hnum, cmp_eq_iff_of_plain hnum hvec]

lemma cmpF64_eq_iff : cmpF64 x y = .eq ↔ x = y ∨ (x.scaled = 0 ∧ y.scaled = 0) := by
  constructor
  · intro h
    by_cases hn : x.isNan = true ∨ y.isNan = true
    · rw [cmpF64_of_nan hn] at h
      exact .inl (eq_of_toNat_bits (compare_eq_iff_eq.1 h))
    · obtain ⟨hx, hy⟩ := not_or.1 hn
      rw [not_eq_true] at hx hy
      rw [cmpF64_of_not_nan hx hy] at h
      have hs := compare_eq_iff_eq.1 h
      by_cases h0 : x.scaled = 0
      · exact .inr ⟨h0, hs ▸ h0⟩
      · exact .inl (eq_of_scaled hs h0)
  · rintro (rfl | ⟨hx, hy⟩)
    · exact cmpF64_self x
    · rw [cmpF64_of_not_nan (isNan_of_scaled_zero hx) (isNan_of_scaled_zero hy), hx, hy]
      rfl

lemma exponent_of_scaled_zero (h : x.scaled = 0) : x.exponent ≠ 2047 := by
  intro he
  have hinf := isInfinite_of_exponent (isNan_of_scaled_zero h) he
  have hbeyond : 0 < F64.beyond := lt_binade_of_fraction (by decide) 2046
  rw [scaled_of_infinite hinf] at h
  split at h <;> omega

lemma cmp_eq_iff_of_numeric (ha : a.isNumeric = true) (hb : b.isNumeric = true) : a.cmp b = .eq ↔
      (∃ q, a.value = some q ∧ b.value = some q) ∨ ∃ s : F64, a = double s ∧ b = double s := by
  constructor
  · intro h
    rcases finite_or_special ha with ⟨p, hp⟩ | ⟨s, rfl, hs⟩ <;>
    rcases finite_or_special hb with ⟨q, hq⟩ | ⟨s', rfl, hs'⟩
    · rw [cmp_finite_eq_compare hp hq, compare_eq_iff_eq] at h
      exact .inl ⟨p, hp, h ▸ hq⟩
    · rw [cmp_finite_special hs' hp] at h
      split at h <;> cases h
    · rw [cmp_special hs hq] at h
      split at h <;> cases h
    · rcases cmpF64_eq_iff.1 h with rfl | ⟨hzero, -⟩
      · exact .inr ⟨s, rfl, rfl⟩
      · exact absurd hs (exponent_of_scaled_zero hzero)
  · rintro (⟨q, hp, hq⟩ | ⟨s, rfl, rfl⟩)
    · rw [cmp_finite_eq_compare hp hq]
      exact compare_eq_iff_eq.2 rfl
    · exact cmp_self _

/-! ## An equivalence -/

lemma isNumeric_of_eq (h : a.eq b = true) : a.isNumeric = b.isNumeric := by
  cases hnum : a.isNumeric with
  | false =>
    rw [eq_iff_of_not_numeric hnum] at h
    rw [← h, hnum]
  | true =>
    rw [eq_iff_cmp_of_numeric hnum] at h
    exact (isNumeric_of_rank hnum (rank_eq_of_cmp h)).symm

/-- **`eq` is an equivalence relation.** -/
lemma eq_equivalence : Equivalence (fun a b : FlakeValue => a.eq b = true) := by
  refine ⟨?_, ?_, ?_⟩
  · intro a
    cases hnum : a.isNumeric with
    | true => exact (eq_iff_cmp_of_numeric hnum).2 (cmp_self a)
    | false => exact (eq_iff_of_not_numeric hnum).2 rfl
  · intro a b h
    have hboth := isNumeric_of_eq h
    cases hnum : a.isNumeric with
    | true =>
      rw [eq_iff_cmp_of_numeric hnum] at h
      rw [eq_iff_cmp_of_numeric (hboth ▸ hnum), cmp_swap, h]
      rfl
    | false =>
      rw [eq_iff_of_not_numeric hnum] at h
      rw [eq_iff_of_not_numeric (hboth ▸ hnum), h]
  · intro a b c hab hbc
    have hnab := isNumeric_of_eq hab
    have hnbc := isNumeric_of_eq hbc
    cases hnum : a.isNumeric with
    | false =>
      rw [eq_iff_of_not_numeric hnum] at hab
      rw [hab]
      exact hbc
    | true =>
      have hnb := hnab ▸ hnum
      have hnc := hnbc ▸ hnb
      rw [eq_iff_cmp_of_numeric hnum, cmp_eq_iff_of_numeric hnum hnb] at hab
      rw [eq_iff_cmp_of_numeric hnb, cmp_eq_iff_of_numeric hnb hnc] at hbc
      rw [eq_iff_cmp_of_numeric hnum, cmp_eq_iff_of_numeric hnum hnc]
      -- the middle value is one number, or one NaN or infinity
      rcases hab with ⟨p, hp, hq⟩ | ⟨s, rfl, rfl⟩
      · rcases hbc with ⟨q, hq', hr⟩ | ⟨s, rfl, rfl⟩
        · rw [hq, some.injEq] at hq'
          exact .inl ⟨q, hq' ▸ hp, hr⟩
        · exact .inl ⟨p, hp, hq⟩
      · exact hbc

/-! ## The hash of a number -/

lemma toRat_ofDecimal (digits scale : ℤ) :
    (Exact.ofDecimal digits scale).toRat = Decimal.value digits scale := by
  unfold ofDecimal
  split
  · rename_i h
    obtain ⟨k, rfl⟩ := Int.eq_ofNat_of_zero_le h
    rw [value_natCast]
    simp [toRat]
  · obtain ⟨k, rfl⟩ : ∃ k : ℕ, scale = -k := ⟨(-scale).toNat, by omega⟩
    simp [Exact.toRat, Decimal.value]

lemma hashDecimalCanonical_congr (h : Decimal.value d s = Decimal.value d' s') :
    hashDecimalCanonical d s = hashDecimalCanonical d' s' := by
  unfold hashDecimalCanonical
  rw [Decimal.normalized_unique h]

lemma hashDecimalCanonical_int {d s n : ℤ} (h : Decimal.value d s = n) :
    hashDecimalCanonical d s = [.byte 0, .signedBytes n] := by
  have hn : Decimal.value n 0 = n := by simp [Decimal.value]
  have hint : isInteger (normalized n 0).1 (normalized n 0).2 = true := by
    simp [isInteger, normalized_int n]
  rw [hashDecimalCanonical_congr (h.trans hn.symm)]
  unfold hashDecimalCanonical
  simp only [hint, if_true, Decimal.withScaleZero_normalized]

def twoTo63 : F64 := ⟨0x43E0000000000000⟩

lemma twoTo63_scaled : twoTo63.scaled = 2 ^ 63 * 2 ^ 1074 := by decide +kernel

lemma value_double (h : x.exponent ≠ 2047) :
    (double x).value = some (Decimal.value x.decimalDigits 1074) := by
  have hdec : Decimal.value x.decimalDigits 1074 = (x.scaled : ℚ) / 2 ^ 1074 :=
    value_binary x.scaled 1074
  have hden : ((2 ^ 1074 : ℕ) : ℚ) = 2 ^ 1074 := Nat.cast_pow 2 1074
  rw [hdec, value, exactValue, exactValue_of_finite h, map_some, toRat, hden]

/-- Saturating at both ends changes no multiple of `unit` in the range but the last one. -/
lemma eq_clamp_mul {a unit} (hpos : 0 < unit) (hint : a % unit = 0)
    (hlo : -2 ^ 63 * unit ≤ a) (hhi : a ≤ 2 ^ 63 * unit) (hne : a ≠ 2 ^ 63 * unit) :
    a = max (-2 ^ 63) (min (2 ^ 63 - 1) (a / unit)) * unit := by
  obtain ⟨n, rfl⟩ := Int.dvd_of_emod_eq_zero hint
  rw [mul_comm unit n] at *
  have hlo' : -2 ^ 63 ≤ n := le_of_mul_le_mul_right hlo hpos
  have hhi' : n ≤ 2 ^ 63 := le_of_mul_le_mul_right hhi hpos
  have hne' : n ≠ 2 ^ 63 := fun h => hne (by rw [h])
  rw [Int.mul_ediv_cancel _ hpos.ne']
  congr 1
  omega

lemma value_of_integral (hint : x.isIntegral = true) (hrange : x.inI64Range = true)
    (hne : x ≠ twoTo63) : Decimal.value x.decimalDigits 1074 = x.asI64 := by
  have hpos : ∀ k : ℕ, (0 : ℤ) < 2 ^ k := fun k => pow_pos (by norm_num) k
  have hscaled : x.scaled ≠ 2 ^ 63 * 2 ^ 1074 := by
    intro h
    refine hne (eq_of_scaled (h.trans twoTo63_scaled.symm) ?_)
    rw [h]
    exact (mul_pos (hpos 63) (hpos 1074)).ne'
  simp only [F64.isIntegral, F64.inI64Range, and_eq_true, decide_eq_true_eq, beq_iff_eq]
    at hint hrange
  have hclamp := eq_clamp_mul (hpos 1074) hint hrange.1 hrange.2 hscaled
  have hdec : Decimal.value x.decimalDigits 1074 = (x.scaled : ℚ) / 2 ^ 1074 :=
    value_binary x.scaled 1074
  have hcast : (x.scaled : ℚ) = x.asI64 * 2 ^ 1074 := by
    have := congrArg (Int.cast (R := ℚ)) hclamp
    rwa [Int.cast_mul, Int.cast_pow, Int.cast_ofNat] at this
  rw [hdec, hcast, mul_div_assoc, div_self (pow_ne_zero _ (by norm_num)), mul_one]

/-- **A number is fed to the hasher by its value**, whatever its representation, unless it is
the double `2^63`. -/
lemma hash_of_value {d s : ℤ} (hv : v.value = some (Decimal.value d s)) (hne : v ≠ double twoTo63) :
    v.hash = hashDecimalCanonical d s := by
  cases v with
  | long n =>
    have hval : Decimal.value d s = n.toInt := by
      simpa [value, exactValue, toRat, ofInt, eq_comm] using hv
    rw [hashDecimalCanonical_int hval]
    rfl
  | bigInt n =>
    have hval : Decimal.value d s = n := by
      simpa [value, exactValue, toRat, ofInt, eq_comm] using hv
    rw [hashDecimalCanonical_int hval]
    rfl
  | decimal d' s' =>
    have hval : Decimal.value d' s' = Decimal.value d s := by
      rw [value, exactValue, map_some, toRat_ofDecimal] at hv
      exact some.inj hv
    exact hashDecimalCanonical_congr hval
  | double x =>
    have hexp : x.exponent ≠ 2047 := by
      intro he
      rw [value, exactValue, exactValue_eq_none.2 he] at hv
      cases hv
    rw [value_double hexp, some.injEq] at hv
    have hx : x ≠ twoTo63 := fun h => hne (congrArg double h)
    show hashDouble x = _
    unfold hashDouble
    rw [isNan_of_finite hexp, isInfinite_of_finite hexp]
    simp only [false_eq_true, if_false]
    split
    · rename_i hint
      rw [and_eq_true] at hint
      rw [hashDecimalCanonical_int (hv.symm.trans (value_of_integral hint.1 hint.2 hx))]
    · exact hashDecimalCanonical_congr hv
  | _ => cases hv

lemma exists_decimal (hv : v.value = some q) : ∃ d s, q = Decimal.value d s := by
  cases v with
  | long n => exact ⟨n.toInt, 0, by simpa [value, exactValue, Exact.toRat, Exact.ofInt,
      Decimal.value, eq_comm] using hv⟩
  | bigInt n => exact ⟨n, 0, by simpa [value, exactValue, Exact.toRat, Exact.ofInt,
      Decimal.value, eq_comm] using hv⟩
  | decimal d s =>
    rw [value, exactValue, map_some, toRat_ofDecimal] at hv
    exact ⟨d, s, (some.inj hv).symm⟩
  | double x =>
    have hexp : x.exponent ≠ 2047 := by
      intro he
      rw [value, exactValue, F64.exactValue_eq_none.2 he] at hv
      cases hv
    rw [value_double hexp, some.injEq] at hv
    exact ⟨_, _, hv.symm⟩
  | _ => cases hv

/-! ## Agreement -/

/-- Equality, hash and order agree on two values. -/
structure Agree (a b : FlakeValue) : Prop where
  hash : a.eq b = true → a.hash = b.hash
  order : a.eq b = true ↔ a.cmp b = .eq

/-- `a` is the double `2^63` and `b` an integer or decimal of that value. -/
def Saturates (a b : FlakeValue) : Prop :=
  a = double twoTo63 ∧ b.isDouble = false ∧ b.value = some (2 ^ 63)

/-- Two vectors that differ in the signs of zeros only. -/
def ZeroSigns (a b : FlakeValue) : Prop :=
  ∃ u v, a = vector u ∧ b = vector v ∧ u ≠ v ∧
    List.Forall₂ (fun x y : F64 => x = y ∨ (x.scaled = 0 ∧ y.scaled = 0)) u v

lemma cmpVectorItems_eq_iff (u v : List F64) : cmpVectorItems u v = .eq ↔
      List.Forall₂ (fun x y : F64 => x = y ∨ (x.scaled = 0 ∧ y.scaled = 0)) u v := by
  induction u generalizing v with
  | nil => cases v <;> simp [cmpVectorItems]
  | cons x u ih =>
    cases v with
    | nil => simp [cmpVectorItems]
    | cons => rw [cmpVectorItems, then_eq_eq, forall₂_cons, ih, cmpF64_eq_iff]

lemma cmpVector_eq_iff (u v : List F64) : cmpVector u v = .eq ↔
      List.Forall₂ (fun x y : F64 => x = y ∨ (x.scaled = 0 ∧ y.scaled = 0)) u v := by
  cases u with
  | nil => cases v <;> simp [cmpVector]
  | cons x u =>
    cases v with
    | nil => simp [cmpVector]
    | cons y v => exact cmpVectorItems_eq_iff (x :: u) (y :: v)

lemma order_agrees_iff (a b : FlakeValue) : (a.eq b = true ↔ a.cmp b = .eq) ↔ ¬ ZeroSigns a b := by
  cases hvec : a.isVector with
  | false =>
    refine iff_of_true (eq_iff_cmp hvec) ?_
    rintro ⟨u, v, rfl, -⟩
    cases hvec
  | true =>
    cases a with
    | vector u =>
      rw [eq_iff_of_not_numeric rfl]
      cases b with
      | vector v =>
        have hcmp : (vector u).cmp (vector v) = cmpVector u v := rfl
        rw [hcmp, cmpVector_eq_iff, vector.injEq]
        constructor
        · rintro h ⟨u', v', hu, hv, hne, hall⟩
          cases hu
          cases hv
          exact hne (h.2 hall)
        · intro h
          constructor
          · rintro rfl
            exact forall₂_same.2 fun _ _ => .inl rfl
          · intro hall
            by_contra hne
            exact h ⟨u, v, rfl, rfl, hne, hall⟩
      | _ =>
        refine iff_of_true (iff_of_false nofun fun h => ?_) ?_
        · cases rank_eq_of_cmp h
        · rintro ⟨u', v', -, hv, -⟩
          cases hv
    | _ => cases hvec

lemma twoTo63_value : (double twoTo63).value = some (2 ^ 63) := by
  have hexp : twoTo63.exponent ≠ 2047 := by decide
  have hdec : Decimal.value twoTo63.decimalDigits 1074 = (twoTo63.scaled : ℚ) / 2 ^ 1074 :=
    value_binary twoTo63.scaled 1074
  rw [value_double hexp, hdec, twoTo63_scaled, Int.cast_mul, Int.cast_pow, Int.cast_pow,
    Int.cast_ofNat, mul_div_assoc, div_self (pow_ne_zero _ (by norm_num)), mul_one]

lemma hash_twoTo63 : (double twoTo63).hash = [.byte 0, .signedBytes (2 ^ 63 - 1)] := by
  decide +kernel

lemma hash_of_value_twoTo63 (hd : v.isDouble = false) (hv : v.value = some (2 ^ 63)) :
    v.hash = [.byte 0, .signedBytes (2 ^ 63)] := by
  have hval : Decimal.value (2 ^ 63) 0 = ((2 ^ 63 : ℤ) : ℚ) := by simp [Decimal.value]
  have hne : v ≠ double twoTo63 := by
    rintro rfl
    cases hd
  have hv' : v.value = some (Decimal.value (2 ^ 63) 0) := by
    rw [hv, hval]
    norm_num
  rw [hash_of_value hv' hne, hashDecimalCanonical_int hval]

lemma isNumeric_of_value (hv : v.value = some q) : v.isNumeric = true := by
  cases v <;> first | rfl | cases hv

lemma Saturates.disagree (h : Saturates a b) : a.eq b = true ∧ a.hash ≠ b.hash := by
  obtain ⟨rfl, hd, hv⟩ := h
  constructor
  · rw [eq_iff_cmp_of_numeric rfl, cmp_eq_iff_of_numeric rfl (isNumeric_of_value hv)]
    exact .inl ⟨2 ^ 63, twoTo63_value, hv⟩
  · rw [hash_twoTo63, hash_of_value_twoTo63 hd hv]
    decide

lemma eq_twoTo63 (h : (double twoTo63).eq b = true) (hsat : ¬ Saturates (double twoTo63) b) :
    b = double twoTo63 := by
  have hb : b.isNumeric = true := (isNumeric_of_eq h).symm
  rw [eq_iff_cmp_of_numeric rfl] at h
  cases hd : b.isDouble with
  | true =>
    obtain ⟨_, rfl⟩ := eq_double hd
    rcases cmpF64_eq_iff.1 h with heq | ⟨hzero, -⟩
    · rw [heq]
    · exact absurd hzero (by decide +kernel)
  | false =>
    rcases (cmp_eq_iff_of_numeric rfl hb).1 h with ⟨q, hq, hbq⟩ | ⟨s, hs, rfl⟩
    · rw [twoTo63_value] at hq
      exact absurd ⟨rfl, hd, hq ▸ hbq⟩ hsat
    · cases hd

lemma hash_agrees_iff (a b : FlakeValue) :
    (a.eq b = true → a.hash = b.hash) ↔ ¬ Saturates a b ∧ ¬ Saturates b a := by
  have hsymm : ∀ {x y : FlakeValue}, x.eq y = true → y.eq x = true := eq_equivalence.symm
  constructor
  · intro h
    refine ⟨fun hs => hs.disagree.2 (h hs.disagree.1), fun hs => ?_⟩
    exact hs.disagree.2 (h (hsymm hs.disagree.1)).symm
  · rintro ⟨hab, hba⟩ heq
    cases hnum : a.isNumeric with
    | false => rw [(eq_iff_of_not_numeric hnum).1 heq]
    | true =>
      by_cases ha : a = double twoTo63
      · subst ha
        rw [eq_twoTo63 heq hab]
      by_cases hb : b = double twoTo63
      · subst hb
        rw [eq_twoTo63 (hsymm heq) hba]
      have hnb : b.isNumeric = true := isNumeric_of_eq heq ▸ hnum
      rw [eq_iff_cmp_of_numeric hnum, cmp_eq_iff_of_numeric hnum hnb] at heq
      rcases heq with ⟨q, hqa, hqb⟩ | ⟨s, rfl, rfl⟩
      · obtain ⟨_, s, rfl⟩ := exists_decimal hqa
        rw [hash_of_value hqa ha, hash_of_value hqb hb]
      · rfl

/-- **Equality, hash and order agree on two values** exactly if they are not the double `2^63`
with an integer or decimal of that value, nor vectors that differ in the signs of zeros only. -/
theorem agree_iff (a b : FlakeValue) : Equivalence (fun a b : FlakeValue => a.eq b = true) ∧
      (Agree a b ↔ (¬ Saturates a b ∧ ¬ Saturates b a) ∧ ¬ ZeroSigns a b) := by
  refine ⟨eq_equivalence, ?_⟩
  rw [← hash_agrees_iff, ← order_agrees_iff]
  exact ⟨fun h => ⟨h.hash, h.order⟩, fun h => ⟨h.1, h.2⟩⟩

/-- The double `2^63` equals the integer `2^63`, and the hasher is fed `2^63 - 1` for the one
and `2^63` for the other. -/
theorem saturated_hash_differs : (double twoTo63).eq (bigInt (2 ^ 63)) = true ∧
      (double twoTo63).hash = [.byte 0, .signedBytes (2 ^ 63 - 1)] ∧
      (bigInt (2 ^ 63)).hash = [.byte 0, .signedBytes (2 ^ 63)] ∧
      ¬ Agree (double twoTo63) (bigInt (2 ^ 63)) := by
  have heq : (double twoTo63).eq (bigInt (2 ^ 63)) = true := by decide +kernel
  refine ⟨heq, hash_twoTo63, rfl, ?_⟩
  intro h
  have := h.hash heq
  rw [hash_twoTo63] at this
  revert this
  decide

end FlakeValue

end

/-!
## Facts that novelty leaves asserted

* `winner_ok`: the operation that decides a fact, by its time and kind;
* `exists_mem_resolveCurrentFlakes`: **an asserted fact is found**, by an assert of it.
-/

open Lib List FlakeValue

lemma sameFact_true_iff :
    sameFact a b = true ↔ a.s = b.s ∧ a.p = b.p ∧ a.o.eq b.o = true ∧ a.dt = b.dt ∧ a.m = b.m := by
  simp [sameFact, and_assoc]

lemma sameFact_congr (h : sameFact a b = true) (c : Flake) : sameFact c a = sameFact c b := by
  obtain ⟨hs, hp, ho, hdt, hm⟩ := sameFact_true_iff.1 h
  have heq : c.o.eq a.o = c.o.eq b.o := by
    rw [Bool.eq_iff_iff]
    exact ⟨fun hc => eq_equivalence.trans hc ho,
      fun hc => eq_equivalence.trans hc (eq_equivalence.symm ho)⟩
  simp only [sameFact, hs, hp, hdt, hm, heq]

variable {f : Flake} {flakes : List Flake}

lemma beats_iff :
    beats f cur = true ↔ cur.t < f.t ∨ f.t = cur.t ∧ f.op = false ∧ cur.op = true := by
  simp [beats, and_assoc]

lemma not_beats_of_beats (hyw : ¬ beats y w = true) (hw : beats w' w = true) :
    ¬ beats y w' = true := by
  rw [beats_iff] at *
  rcases hw with hw | ⟨ht, hop, hop'⟩
  · rintro (hy | ⟨hy, -, -⟩)
    · exact hyw (.inl (hw.trans hy))
    · exact hyw (.inl (hy ▸ hw))
  · rintro (hy | ⟨-, -, hy⟩)
    · exact hyw (.inl (ht ▸ hy))
    · rw [hop] at hy
      cases hy

/-- **The operation that decides a fact**: no other operation on the fact beats it. -/
structure Wins (f : Flake) (flakes : List Flake) (w : ℕ × Flake) : Prop where
  at_pos : flakes[w.1]? = some w.2
  same : sameFact w.2 f = true
  best : ∀ y ∈ flakes, sameFact y f = true → ¬ beats y w.2 = true

/-- What is known of the winner among the operations so far. -/
def WinnerOk (f : Flake) (flakes : List Flake) : Option (ℕ × Flake) → Prop
  | none => ∀ y ∈ flakes, ¬ sameFact y f = true
  | some w => Wins f flakes w

lemma Wins.append (h : Wins f flakes w)
    (hx : sameFact x f = true → ¬ beats x w.2 = true) : Wins f (flakes ++ [x]) w := by
  refine ⟨?_, h.same, fun y hy hsame => ?_⟩
  · rw [List.getElem?_append_left (List.getElem?_eq_some_iff.1 h.at_pos).1]
    exact h.at_pos
  · rcases mem_append.1 hy with hy | hy
    · exact h.best y hy hsame
    · obtain rfl := mem_singleton.1 hy
      exact hx hsame

lemma not_beats_self (x : Flake) : ¬ beats x x = true := by
  rw [beats_iff]
  rintro (h | ⟨-, h, h'⟩)
  · exact lt_irrefl _ h
  · rw [h] at h'
    cases h'

lemma winnerStep_ok (h : WinnerOk f flakes w) (x : Flake) :
    WinnerOk f (flakes ++ [x]) (winnerStep f w (x, flakes.length)) := by
  have hat : (flakes ++ [x])[flakes.length]? = some x := by simp
  unfold winnerStep
  by_cases hx : sameFact x f = true
  · rw [if_pos hx]
    cases w with
    | none =>
      refine ⟨hat, hx, fun y hy hsame => ?_⟩
      rcases mem_append.1 hy with hy | hy
      · exact absurd hsame (h y hy)
      · obtain rfl := mem_singleton.1 hy
        exact not_beats_self y
    | some cur =>
      have hcur : Wins f flakes cur := h
      by_cases hb : beats x cur.2 = true
      · simp only [hb, if_true]
        refine ⟨hat, hx, fun y hy hsame => ?_⟩
        rcases mem_append.1 hy with hy | hy
        · exact not_beats_of_beats (hcur.best y hy hsame) hb
        · obtain rfl := mem_singleton.1 hy
          exact not_beats_self y
      · simp only [hb]
        exact hcur.append fun _ => hb
  · rw [if_neg hx]
    cases w with
    | none =>
      intro y hy
      rcases mem_append.1 hy with hy | hy
      · exact h y hy
      · obtain rfl := mem_singleton.1 hy
        exact hx
    | some cur =>
      have hcur : Wins f flakes cur := h
      exact hcur.append fun hsame => absurd hsame hx

lemma winner_ok (f : Flake) (flakes : List Flake) : WinnerOk f flakes (winner f flakes) := by
  induction flakes using List.reverseRecOn with
  | nil => exact fun _ hy => absurd hy not_mem_nil
  | append_singleton flakes x ih =>
    have hstep : winner f (flakes ++ [x]) = winnerStep f (winner f flakes) (x, flakes.length) := by
      rw [winner, zipIdx_append, foldl_append]
      simp [winner]
    rw [hstep]
    exact winnerStep_ok ih x

lemma winner_congr (h : sameFact f g = true) (flakes : List Flake) :
    winner f flakes = winner g flakes := by
  have hstep : winnerStep f = winnerStep g := by
    funext w e
    unfold winnerStep
    rw [sameFact_congr h]
  rw [winner, winner, hstep]

lemma mem_of_mem_removeStaleFlakes (h : f ∈ removeStaleFlakes flakes) :
    f ∈ flakes ∧ f.op = true := by
  obtain ⟨⟨_, _⟩, hmem, he⟩ := mem_filterMap.1 h
  simp only [Option.ite_none_right_eq_some, Option.some.injEq] at he
  obtain ⟨⟨-, hop⟩, rfl⟩ := he
  exact ⟨mem_of_getElem? (mem_zipIdx_iff_getElem?.1 hmem), hop⟩

/-- **An asserted fact is left.** -/
lemma exists_mem_removeStaleFlakes (hx : x ∈ flakes) (hsame : sameFact x target = true)
    (hlast : ∀ y ∈ flakes, sameFact y target = true → y.t < x.t ∨ y.t = x.t ∧ y.op = true) :
    ∃ w ∈ removeStaleFlakes flakes, sameFact w target = true := by
  have hok := winner_ok target flakes
  cases hw : winner target flakes with
  | none =>
    rw [hw] at hok
    exact absurd hsame (hok x hx)
  | some w =>
    rw [hw] at hok
    have hdec : Wins target flakes w := hok
    have hmem : w.2 ∈ flakes := mem_of_getElem? hdec.at_pos
    have hnot := hdec.best x hx hsame
    rw [beats_iff] at hnot
    have hop : w.2.op = true := by
      rcases hlast w.2 hmem hdec.same with hlt | ⟨-, hop⟩
      · exact absurd (.inl hlt) hnot
      · exact hop
    refine ⟨w.2, mem_filterMap.2 ⟨(w.2, w.1), mem_zipIdx_iff_getElem?.2 hdec.at_pos, ?_⟩, hdec.same⟩
    rw [if_pos ⟨(winner_congr hdec.same flakes).trans hw, hop⟩]

lemma mem_of_mem_resolveCurrentFlakes
    (h : f ∈ resolveCurrentFlakes flakes index) : f ∈ flakes ∧ f.op = true := by
  obtain ⟨hmem, hop⟩ := mem_of_mem_removeStaleFlakes h
  exact ⟨(insertionSortBy_perm _ _).mem_iff.1 hmem, hop⟩

lemma exists_mem_resolveCurrentFlakes (index : IndexType) (hx : x ∈ flakes)
    (hsame : sameFact x target = true)
    (hlast : ∀ y ∈ flakes, sameFact y target = true → y.t < x.t ∨ y.t = x.t ∧ y.op = true) :
    ∃ w ∈ resolveCurrentFlakes flakes index, sameFact w target = true := by
  have hperm := insertionSortBy_perm index.compare flakes
  exact exists_mem_removeStaleFlakes (hperm.mem_iff.2 hx) hsame
    fun y hy => hlast y (hperm.mem_iff.1 hy)

end Fluree

import Fluree.Core.Flake
import Fluree.Proof.Double

/-!
# When values are totally ordered

`FlakeValue.cmp` reverses when its arguments do (`cmp_swap`), but it is not transitive. A
number is compared with a NaN or an infinity by a rule of its own type (`above`): a decimal
is above every one of them, a large integer below every one, a small long only below
positive infinity and the NaNs. Each such rule cuts the numbers in two, and only if the cut
agrees with their values is there no cycle.

* `Orderly S`: what the values of `S` have to satisfy.
-/

namespace Fluree

open Lib Option Bool F64 Exact FlakeValue Ordering Std.OrientedOrd

namespace FlakeValue

/-! ## Values of different classes -/

/-- The numbers count as one type. -/
def rank (v : FlakeValue) : ℕ := if v.isNumeric then 3 else v.typeDiscriminant

variable {a b : FlakeValue} {u v : List F64} {x s : F64} {q : ℚ}

lemma cmp_of_rank_ne (h : a.rank ≠ b.rank) : a.cmp b = compare a.rank b.rank := by
  cases a <;> cases b <;> first | exact absurd rfl h | rfl

lemma typeDiscriminant_eq_of_rank (ha : a.isNumeric = false) (h : a.rank = b.rank) :
    a.typeDiscriminant = b.typeDiscriminant := by
  cases a <;> cases b <;> first | rfl | (cases ha; done) | cases h

lemma isNumeric_of_rank (ha : a.isNumeric = true) (h : a.rank = b.rank) : b.isNumeric = true := by
  cases a <;> cases b <;> first | rfl | (cases ha; done) | cases h

/-! ## Values that are neither numbers nor vectors -/

def isVector : FlakeValue → Bool
  | vector _ => true
  | _ => false

/-- The first field that the comparison of a type reads, as a number. -/
def firstField : FlakeValue → ℤ
  | ref sid => sid.namespaceCode.toNat
  | boolean b => b.toNat
  | date days => days
  | time secs _ => secs
  | dateTime secs _ => secs
  | gYear year => year
  | gYearMonth year _ => year
  | gMonth month => month
  | gDay day => day
  | gMonthDay month _ => month
  | yearMonthDuration months => months
  | dayTimeDuration micros => micros
  | duration months _ => months
  | geoPoint bits => bits.toNat
  | _ => 0

def secondField : FlakeValue → ℤ
  | time _ nanos => nanos
  | dateTime _ nanos => nanos
  | gYearMonth _ month => month
  | gMonthDay _ day => day
  | duration _ micros => micros
  | _ => 0

def textField : FlakeValue → String
  | ref sid => sid.name
  | string s => s
  | json s => s
  | _ => ""

lemma compare_natCast (a b : ℕ) : compare (a : ℤ) (b : ℤ) = compare a b := by
  simp [compare, compareOfLessAndEq]

lemma compare_uint16 (a b : UInt16) : compare a b = compare a.toNat b.toNat := by
  simp [compare, compareOfLessAndEq, UInt16.lt_iff_toNat_lt, UInt16.toNat_inj]

lemma compare_bool (a b : Bool) : compare a b = compare a.toNat b.toNat := by
  cases a <;> cases b <;> rfl

lemma sameTypeCmp_eq_fields (hnum : a.isNumeric = false) (hvec : a.isVector = false)
    (h : a.typeDiscriminant = b.typeDiscriminant) :
    sameTypeCmp a b = ((compare a.firstField b.firstField).then
      (compare a.secondField b.secondField)).then (compare a.textField b.textField) := by
  cases a <;> cases b <;>
    first | (cases hnum; done) | (cases hvec; done) | (cases h; done) |
      simp [sameTypeCmp, firstField, secondField, textField, compare_natCast, compare_uint16,
        compare_uint64, compare_bool, Sid.cmp]

lemma totalOn_fields (S : List FlakeValue) :
    TotalOn (fun a b : FlakeValue => ((compare a.firstField b.firstField).then
      (compare a.secondField b.secondField)).then (compare a.textField b.textField)) S :=
  ((totalOn_compare firstField S).andThen (totalOn_compare secondField S)).andThen
    (totalOn_compare textField S)

/-! ## Vectors -/

lemma cmpVectorItems_swap (u v : List F64) : cmpVectorItems v u = (cmpVectorItems u v).swap := by
  induction u generalizing v with
  | nil => cases v <;> rfl
  | cons x u ih =>
    cases v with
    | nil => rfl
    | cons => rw [cmpVectorItems, cmpVectorItems, ih, cmpF64_swap, swap_then]

lemma cmpVector_swap (u v : List F64) : cmpVector v u = (cmpVector u v).swap := by
  cases u with
  | nil => cases v <;> rfl
  | cons x u =>
    cases v with
    | nil => rfl
    | cons y v => exact cmpVectorItems_swap (x :: u) (y :: v)

/-- `u` is before `v` in lexicographic order. -/
inductive Before : List F64 → List F64 → Prop where
  | shorter (y : F64) (v : List F64) : Before [] (y :: v)
  | less {x y : F64} (u v : List F64) : cmpF64 x y = .lt → Before (x :: u) (y :: v)
  | same {x y : F64} {u v : List F64} : cmpF64 x y = .eq → Before u v → Before (x :: u) (y :: v)

lemma before_iff : Before u v ↔ cmpVectorItems u v = .lt := by
  constructor
  · intro h
    induction h with
    | shorter => rfl
    | less u v h => rw [cmpVectorItems, h]; rfl
    | same h _ ih => rw [cmpVectorItems, h, ih]; rfl
  · intro h
    induction u generalizing v with
    | nil =>
      cases v with
      | nil => cases h
      | cons y v => exact .shorter y v
    | cons x u ih =>
      cases v with
      | nil => cases h
      | cons y v =>
        rw [cmpVectorItems] at h
        cases hxy : cmpF64 x y with
        | lt => exact .less u v hxy
        | eq =>
          rw [hxy] at h
          exact .same hxy (ih h)
        | gt =>
          rw [hxy] at h
          cases h

/-- After a common beginning the three vectors go on with a number of positive sign, a NaN of
positive sign and a number of negative sign; and it is not so that the numbers are both zero
with the rest of the vectors putting `u` before `w`. -/
inductive VectorClash : List F64 → List F64 → List F64 → Prop where
  | here {n p m : F64} {u v w : List F64} : Straddled n p m →
      ¬ (cmpF64 n m = .eq ∧ Before u w) → VectorClash (n :: u) (p :: v) (m :: w)
  | later {x y z : F64} {u v w : List F64} : cmpF64 x y = .eq → cmpF64 y z = .eq →
      cmpF64 x z = .eq → VectorClash u v w → VectorClash (x :: u) (y :: v) (z :: w)

lemma cmpVectorItems_chain (huv : cmpVectorItems u v ≠ .gt)
    (hvw : cmpVectorItems v w ≠ .gt) (h₁ : ¬ VectorClash u v w) (h₂ : ¬ VectorClash w u v)
    (h₃ : ¬ VectorClash v w u) : cmpVectorItems u w ≠ .gt := by
  induction u generalizing v w with
  | nil => cases w <;> simp [cmpVectorItems]
  | cons x u ih =>
    cases v with
    | nil => exact absurd rfl huv
    | cons y v =>
      cases w with
      | nil => exact absurd rfl hvw
      | cons z w =>
        have hle : ∀ (a b : F64) (s t : List F64), cmpVectorItems (a :: s) (b :: t) ≠ .gt →
            cmpF64 a b ≠ .gt := by
          intro a b s t h hgt
          rw [cmpVectorItems, hgt] at h
          exact h rfl
        rcases cmpF64_chain (hle _ _ _ _ huv) (hle _ _ _ _ hvw) with
          ⟨hxy, hyz, hxz⟩ | hlt | hst | hst | hst
        · have hyx : cmpF64 y x = .eq := by rw [cmpF64_swap, hxy]; rfl
          have hzy : cmpF64 z y = .eq := by rw [cmpF64_swap, hyz]; rfl
          have hzx : cmpF64 z x = .eq := by rw [cmpF64_swap, hxz]; rfl
          rw [cmpVectorItems, hxy] at huv
          rw [cmpVectorItems, hyz] at hvw
          rw [cmpVectorItems, hxz]
          exact ih huv hvw (fun h => h₁ (.later hxy hyz hxz h))
            (fun h => h₂ (.later hzx hxy hzy h)) (fun h => h₃ (.later hyz hzx hyx h))
        · rw [cmpVectorItems, hlt]
          exact fun h => by cases h
        · -- `u` is nonnegative, `v` has the NaN, `w` is negative: the rest decides for `u`
          have hrest := not_not.1 fun h => h₁ (.here hst h)
          rw [cmpVectorItems, hrest.1, before_iff.1 hrest.2]
          exact fun h => by cases h
        · -- `w` is nonnegative and `v` negative, so `w < v`
          have hrest := not_not.1 fun h => h₂ (.here hst h)
          refine absurd ?_ hvw
          rw [cmpVectorItems_swap, cmpVectorItems, hrest.1, before_iff.1 hrest.2]
          rfl
        · -- `v` is nonnegative and `u` negative, so `v < u`
          have hrest := not_not.1 fun h => h₃ (.here hst h)
          refine absurd ?_ huv
          rw [cmpVectorItems_swap, cmpVectorItems, hrest.1, before_iff.1 hrest.2]
          rfl

lemma VectorClash.cycle (h : VectorClash u v w) :
    cmpVectorItems u v = .lt ∧ cmpVectorItems v w = .lt ∧ cmpVectorItems u w ≠ .lt := by
  induction h with
  | here hst hrest =>
    refine ⟨by rw [cmpVectorItems, hst.below]; rfl, by rw [cmpVectorItems, hst.above]; rfl, ?_⟩
    intro hlt
    rw [cmpVectorItems] at hlt
    rename_i n p m u v w
    have hacross := hst.across
    rw [cmpF64_swap] at hacross
    cases hnm : cmpF64 n m with
    | lt => rw [hnm] at hacross; exact hacross rfl
    | gt => rw [hnm] at hlt; cases hlt
    | eq =>
      rw [hnm] at hlt
      exact hrest ⟨hnm, before_iff.2 hlt⟩
  | later hxy hyz hxz _ ih =>
    obtain ⟨h₁, h₂, h₃⟩ := ih
    refine ⟨by rw [cmpVectorItems, hxy, h₁]; rfl, by rw [cmpVectorItems, hyz, h₂]; rfl, ?_⟩
    rw [cmpVectorItems, hxz]
    exact h₃

/-! ## Numbers -/

def exactValue : FlakeValue → Option Exact
  | long n => some (.ofInt n.toInt)
  | bigInt n => some (.ofInt n)
  | double x => x.exactValue
  | decimal digits scale => some (.ofDecimal digits scale)
  | _ => none

def value (v : FlakeValue) : Option ℚ := v.exactValue.map toRat

lemma den_pos_of_exactValue {v : FlakeValue} {e : Exact} (h : v.exactValue = some e) :
    0 < e.den := by
  cases v with
  | long | bigInt => cases h; exact Nat.one_pos
  | decimal d s => cases h; exact ofDecimal_den_pos d s
  | double x =>
    have hfin : x.exponent ≠ 2047 := fun he => by
      rw [exactValue, exactValue_eq_none.2 he] at h
      cases h
    rw [exactValue, exactValue_of_finite hfin] at h
    cases h
    exact Nat.two_pow_pos 1074
  | _ => cases h

lemma finite_or_special {v} (h : v.isNumeric = true) :
    (∃ q, v.value = some q) ∨ ∃ s : F64, v = double s ∧ s.exponent = 2047 := by
  cases v with
  | double x =>
    by_cases he : x.exponent = 2047
    · exact .inr ⟨x, rfl, he⟩
    · exact .inl ⟨_, by rw [value, exactValue, exactValue_of_finite he]; rfl⟩
  | _ => first | exact .inl ⟨_, rfl⟩ | cases h

lemma Exact.cmp_swap (a b : Exact) : b.cmp a = (a.cmp b).swap := eq_swap

lemma compare_eq_cmp_ofInt (a b : ℤ) : compare a b = (Exact.ofInt a).cmp (.ofInt b) := by
  simp [Exact.cmp, Exact.ofInt]

lemma exponent_of_exactValue (h : x.exactValue = some e) : x.exponent ≠ 2047 := by
  intro he
  rw [exactValue_eq_none.2 he] at h
  cases h

lemma cmpLongDouble_finite (n : Int64) (h : x.exactValue = some e) :
    cmpLongDouble n x = some ((ofInt n.toInt).cmp e) := by
  have hexp := exponent_of_exactValue h
  unfold cmpLongDouble F64.cmpExact
  rw [isNan_of_finite hexp, isInfinite_of_finite hexp, h]
  split <;> rfl

lemma cmpF64_finite {y p q} (hx : x.exactValue = some p)
    (hy : y.exactValue = some q) : cmpF64 x y = p.cmp q := by
  have hex := exponent_of_exactValue hx
  have hey := exponent_of_exactValue hy
  rw [exactValue_of_finite hex] at hx
  rw [exactValue_of_finite hey] at hy
  cases hx
  cases hy
  rw [cmpF64_of_not_nan (isNan_of_finite hex) (isNan_of_finite hey),
    cmp_same_den _ _ (Nat.two_pow_pos 1074)]

lemma numericCmp_swap (h : a.typeDiscriminant ≠ b.typeDiscriminant) :
    numericCmp b a = (numericCmp a b).map swap := by
  have hswap : ∀ o : Option Ordering, o = (o.map swap).map swap := by
    intro o
    cases o <;> simp
  cases a <;> cases b <;> first
    | rfl
    | exact absurd rfl h
    | exact hswap _
    | exact congrArg some eq_swap

/-- **The arguments reversed reverse the answer.** -/
lemma cmp_swap (a b : FlakeValue) : b.cmp a = (a.cmp b).swap := by
  unfold cmp
  by_cases h : a.typeDiscriminant = b.typeDiscriminant
  · rw [if_pos h, if_pos h.symm]
    cases hnum : a.isNumeric with
    | true =>
      cases a <;> first
        | (cases hnum; done)
        | (cases b <;> first | (cases h; done) | exact eq_swap | exact cmpF64_swap _ _)
    | false =>
      cases hvec : a.isVector with
      | true =>
        cases a <;> first
          | (cases hvec; done)
          | (cases b <;> first | (cases h; done) | exact cmpVector_swap _ _)
      | false =>
        have hnumb : b.isNumeric = false := by
          cases a <;> cases b <;> first | rfl | (cases hnum; done) | cases h
        have hvecb : b.isVector = false := by
          cases a <;> cases b <;> first | rfl | (cases hvec; done) | cases h
        rw [sameTypeCmp_eq_fields hnum hvec h, sameTypeCmp_eq_fields hnumb hvecb h.symm]
        exact (totalOn_fields [a, b]).swap a (by simp) b (by simp)
  · rw [if_neg h, if_neg (Ne.symm h), numericCmp_swap h]
    cases numericCmp a b with
    | none => exact eq_swap
    | some => rfl

lemma cmp_double_finite {p q} (ha : x.exactValue = some p) (hb : b.exactValue = some q) :
    (double x).cmp b = p.cmp q := by
  cases b with
  | long n =>
    cases hb
    show ((cmpLongDouble n x).map swap).getD _ = _
    rw [cmpLongDouble_finite n ha]
    exact (Exact.cmp_swap _ _).symm
  | bigInt | decimal =>
    cases hb
    show (x.exactValue.map _).getD _ = _
    rw [ha]
    rfl
  | double => exact cmpF64_finite ha hb
  | _ => cases hb

/-- **Finite numbers are ordered by their value**, whatever their types. -/
lemma cmp_finite {p q} (ha : a.exactValue = some p) (hb : b.exactValue = some q) :
    a.cmp b = p.cmp q := by
  cases a with
  | double => exact cmp_double_finite ha hb
  | long | bigInt =>
    cases ha
    cases b <;> first
      | (cases hb; done)
      | (cases hb; exact compare_eq_cmp_ofInt _ _)
      | (cases hb; rfl)
      | (rw [cmp_swap, cmp_double_finite hb rfl, ← Exact.cmp_swap])
  | decimal =>
    cases ha
    cases b <;> first
      | (cases hb; done)
      | (cases hb; rfl)
      | (rw [cmp_swap, cmp_double_finite hb rfl, ← Exact.cmp_swap])
  | _ => cases ha

lemma cmp_finite_eq_compare {p : ℚ} (ha : a.value = some p) (hb : b.value = some q) :
    a.cmp b = compare p q := by
  obtain ⟨_, he, rfl⟩ := map_eq_some_iff.1 ha
  obtain ⟨_, hf, rfl⟩ := map_eq_some_iff.1 hb
  rw [cmp_finite he hf, cmp_eq_compare (den_pos_of_exactValue he) (den_pos_of_exactValue hf)]

/-! ## A number against a NaN or an infinity -/

/-- Whether `v` is put above the NaN or infinity `s`. Only a long within 2^53 and a double are
compared with an infinity by value; the others go by type. -/
def above (s : F64) : FlakeValue → Bool
  | long n => s.isInfinite && s.negative && i64FitsF64 n
  | double y => if s.isNan then !s.negative && y.negative else s.negative
  | decimal _ _ => true
  | _ => false

lemma cmpLongDouble_special (n : Int64) (hs : s.exponent = 2047) :
    (cmpLongDouble n s).getD .lt = if above s (long n) then .gt else .lt := by
  unfold cmpLongDouble F64.cmpExact above
  rw [exactValue_eq_none.2 hs]
  cases hn : s.isNan with
  | true =>
    have hi : s.isInfinite = false := by
      rw [← not_eq_true, isInfinite_iff]
      exact fun h => (isNan_iff.1 hn).2 h.2
    simp [hi]
  | false =>
    rw [isInfinite_of_exponent hn hs]
    cases s.negative <;> cases hf : i64FitsF64 n <;> simp [hf]

lemma cmpF64_infinite_finite (hn : s.isNan = false) (hs : s.exponent = 2047)
    (hx : x.exponent ≠ 2047) : cmpF64 s x = if s.negative then .lt else .gt := by
  have hscaled := scaled_of_infinite (isInfinite_of_exponent hn hs)
  obtain ⟨hlo, hhi⟩ := scaled_bounds hx
  rw [cmpF64_of_not_nan hn (isNan_of_finite hx), hscaled]
  cases s.negative with
  | true => exact compare_lt_iff_lt.2 hlo
  | false => exact compare_gt_iff_gt.2 hhi

section

variable (hs : s.exponent = 2047)
include hs

lemma cmp_special (hb : b.value = some q) :
    (double s).cmp b = if above s b then .lt else .gt := by
  have hnone := exactValue_eq_none.2 hs
  cases b with
  | long n =>
    have h := cmpLongDouble_special n hs
    show ((cmpLongDouble n s).map swap).getD .gt = _
    cases hc : cmpLongDouble n s with
    | none =>
      rw [hc] at h
      split at h
      · cases h
      · rename_i hab
        simp [hab]
    | some =>
      rw [hc, getD_some] at h
      rw [map_some, getD_some, h]
      split <;> rfl
  | bigInt | decimal =>
    show (s.exactValue.map _).getD _ = _
    rw [hnone]
    rfl
  | double x =>
    have hx : x.exponent ≠ 2047 := by
      intro he
      rw [value, exactValue, exactValue_eq_none.2 he] at hb
      cases hb
    show cmpF64 s x = _
    cases hn : s.isNan with
    | true => rw [cmpF64_nan_number hn (isNan_of_finite hx), above, hn, if_pos rfl]
    | false =>
      rw [cmpF64_infinite_finite hn hs hx, above, hn]
      rfl
  | _ => cases hb

lemma cmp_finite_special (hb : b.value = some q) :
    b.cmp (double s) = if above s b then .gt else .lt := by
  rw [cmp_swap, cmp_special hs hb]
  split <;> rfl

lemma special_le_iff (hb : b.value = some q) : (double s).cmp b ≠ .gt ↔ above s b = true := by
  rw [cmp_special hs hb]
  cases above s b <;> simp

lemma le_special_iff (hb : b.value = some q) : b.cmp (double s) ≠ .gt ↔ above s b = false := by
  rw [cmp_finite_special hs hb]
  cases above s b <;> simp

end

lemma finite_le_iff (ha : a.value = some p) (hb : b.value = some q) : a.cmp b ≠ .gt ↔ p ≤ q := by
  rw [cmp_finite_eq_compare ha hb, Ne, compare_gt_iff_gt, not_lt]

def isDouble : FlakeValue → Bool
  | double _ => true
  | _ => false

/-- Two NaNs or infinities and a number that is no double: what is above the greater one is
above the smaller one, but for a small long with negative infinity and a NaN of positive
sign. -/
lemma above_of_above {s' x} (hs : s.exponent = 2047)
    (hle : cmpF64 s s' ≠ .gt) (hx : x.isDouble = false) (hab : above s' x = true) :
    above s x = true ∨ (s.isNan = true ∧ s.negative = false ∧ s'.isInfinite = true ∧
      s'.negative = true ∧ ∃ n, x = long n ∧ i64FitsF64 n = true) := by
  cases x with
  | decimal => exact .inl rfl
  | double => cases hx
  | long n =>
    simp only [above, and_eq_true] at hab ⊢
    obtain ⟨⟨hinf, hneg⟩, hfits⟩ := hab
    have hn' : s'.isNan = false := by
      rw [← not_eq_true, isNan_iff]
      exact fun h => h.2 (isInfinite_iff.1 hinf).2
    cases hn : s.isNan with
    | true =>
      obtain ⟨hpos, -⟩ := signs_of_nan_le hn hn' hle
      exact .inr ⟨rfl, hpos, hinf, hneg, n, rfl, hfits⟩
    | false =>
      have hi := isInfinite_of_exponent hn hs
      refine .inl ⟨⟨hi, ?_⟩, hfits⟩
      -- negative infinity is the least of the infinities
      by_contra hpos
      rw [not_eq_true] at hpos
      rw [cmpF64_of_not_nan hn hn', scaled_of_infinite hi, scaled_of_infinite hinf, hpos,
        hneg] at hle
      have hbeyond : 0 < F64.beyond := lt_binade_of_fraction (by decide) 2046
      exact hle (compare_gt_iff_gt.2 (by simp only [if_true, false_eq_true, if_false]; omega))
  | _ => cases hab

/-! ## Orderly values -/

/-- Values among which the comparison has no cycle. -/
structure Orderly (S : List FlakeValue) : Prop where
  /-- The numbers put below a NaN or infinity are smaller than those put above it. -/
  cut : ∀ s, double s ∈ S → s.exponent = 2047 → ∀ x ∈ S, ∀ y ∈ S, ∀ p q,
    x.value = some p → y.value = some q → above s x = false → above s y = true → p < q
  /-- With a NaN of positive sign, all doubles that are no NaN have the same sign. -/
  signs : ∀ n p m, double n ∈ S → double p ∈ S → double m ∈ S → ¬ Straddled n p m
  /-- With a NaN of positive sign and negative infinity, no long is within 2^53. -/
  small : ∀ p i n, double p ∈ S → double i ∈ S → long n ∈ S → p.isNan = true →
    p.negative = false → i.isInfinite = true → i.negative = true → i64FitsF64 n = false
  /-- No three vectors clash at a NaN of positive sign. -/
  vectors : ∀ u v w, vector u ∈ S → vector v ∈ S → vector w ∈ S → ¬ VectorClash u v w

section Orderly

variable {S : List FlakeValue}

lemma eq_double {v} (h : v.isDouble = true) : ∃ x, v = double x := by
  cases v with
  | double x => exact ⟨x, rfl⟩
  | _ => cases h

section

variable (h : Orderly S)
include h

lemma Orderly.doubles_trans (hx : double x ∈ S) (hy : double y ∈ S)
    (hz : double z ∈ S) (hxy : cmpF64 x y ≠ .gt) (hyz : cmpF64 y z ≠ .gt) : cmpF64 x z ≠ .gt := by
  rcases cmpF64_chain hxy hyz with ⟨-, -, heq⟩ | hlt | hst | hst | hst
  · simp [heq]
  · simp [hlt]
  · exact absurd hst (h.signs _ _ _ hx hy hz)
  · exact absurd hst (h.signs _ _ _ hz hx hy)
  · exact absurd hst (h.signs _ _ _ hy hz hx)

lemma Orderly.above_mono {s s' x q} (hs : double s ∈ S) (hs' : double s' ∈ S) (hx : x ∈ S)
    (hes : s.exponent = 2047) (hes' : s'.exponent = 2047) (hq : x.value = some q)
    (hle : cmpF64 s s' ≠ .gt) (hab : above s' x = true) : above s x = true := by
  cases hd : x.isDouble with
  | true =>
    obtain ⟨y, rfl⟩ := eq_double hd
    -- three doubles: `s ≤ s' < y`
    have hlt : cmpF64 s' y = .lt := by
      have := cmp_special hes' hq
      rwa [if_pos hab] at this
    have hsy := h.doubles_trans hs hs' hx hle (by simp [hlt])
    by_contra hab'
    have hgt := cmp_special hes hq
    rw [if_neg hab'] at hgt
    exact hsy hgt
  | false =>
    rcases above_of_above hes hle hd hab with h' | ⟨hn, hpos, hinf, hneg, n, rfl, hfits⟩
    · exact h'
    · rw [h.small s s' n hs hs' hx hn hpos hinf hneg] at hfits
      cases hfits

lemma Orderly.numbers_trans {a b c} (ha : a ∈ S) (hb : b ∈ S)
    (hc : c ∈ S) (hna : a.isNumeric = true) (hnb : b.isNumeric = true) (hnc : c.isNumeric = true)
    (hab : a.cmp b ≠ .gt) (hbc : b.cmp c ≠ .gt) : a.cmp c ≠ .gt := by
  -- with one NaN or infinity the cut decides, with two their cuts are nested
  rcases finite_or_special hna with ⟨p, hp⟩ | ⟨s, rfl, hs⟩ <;>
  rcases finite_or_special hnb with ⟨q, hq⟩ | ⟨s', rfl, hs'⟩ <;>
  rcases finite_or_special hnc with ⟨r, hr⟩ | ⟨s'', rfl, hs''⟩
  · rw [finite_le_iff hp hq] at hab
    rw [finite_le_iff hq hr] at hbc
    exact (finite_le_iff hp hr).2 (le_trans hab hbc)
  · rw [finite_le_iff hp hq] at hab
    rw [le_special_iff hs'' hq] at hbc
    rw [le_special_iff hs'' hp]
    by_contra hup
    have hlt := h.cut s'' hc hs'' b hb a ha q p hq hp hbc (not_eq_false _ ▸ hup)
    exact absurd hab (not_le.2 hlt)
  · rw [le_special_iff hs' hp] at hab
    rw [special_le_iff hs' hr] at hbc
    exact (finite_le_iff hp hr).2 (le_of_lt (h.cut s' hb hs' a ha c hc p r hp hr hab hbc))
  · rw [le_special_iff hs' hp] at hab
    rw [le_special_iff hs'' hp, ← not_eq_true]
    intro hup
    rw [h.above_mono hb hc ha hs' hs'' hp hbc hup] at hab
    cases hab
  · rw [special_le_iff hs hq] at hab
    rw [finite_le_iff hq hr] at hbc
    rw [special_le_iff hs hr]
    by_contra hdown
    have hlt := h.cut s ha hs c hc b hb r q hr hq (not_eq_true _ ▸ hdown) hab
    exact absurd hbc (not_le.2 hlt)
  · rw [special_le_iff hs hq] at hab
    rw [le_special_iff hs'' hq] at hbc
    intro hgt
    have hle : cmpF64 s'' s ≠ .gt := by
      have hrev : (double s'').cmp (double s) ≠ .gt := by rw [cmp_swap, hgt]; exact nofun
      exact hrev
    rw [h.above_mono hc ha hb hs'' hs hq hle hab] at hbc
    cases hbc
  · rw [special_le_iff hs' hr] at hbc
    exact (special_le_iff hs hr).2 (h.above_mono ha hb hc hs hs' hr hab hbc)
  · exact h.doubles_trans ha hb hc hab hbc

lemma Orderly.vectors_trans (hu : vector u ∈ S) (hv : vector v ∈ S) (hw : vector w ∈ S)
    (huv : cmpVector u v ≠ .gt) (hvw : cmpVector v w ≠ .gt) : cmpVector u w ≠ .gt := by
  cases w with
  | nil => cases u <;> exact nofun
  | cons =>
    cases v with
    | nil => exact absurd rfl hvw
    | cons =>
      cases u with
      | nil => exact absurd rfl huv
      | cons =>
        exact cmpVectorItems_chain huv hvw (h.vectors _ _ _ hu hv hw) (h.vectors _ _ _ hw hu hv)
          (h.vectors _ _ _ hv hw hu)

lemma Orderly.same_rank_trans (ha : a ∈ S) (hb : b ∈ S)
    (hc : c ∈ S) (hrab : a.rank = b.rank) (hrbc : b.rank = c.rank) (hab : a.cmp b ≠ .gt)
    (hbc : b.cmp c ≠ .gt) : a.cmp c ≠ .gt := by
  cases hnum : a.isNumeric with
  | true =>
    have hnb := isNumeric_of_rank hnum hrab
    exact h.numbers_trans ha hb hc hnum hnb (isNumeric_of_rank hnb hrbc) hab hbc
  | false =>
    have hdab := typeDiscriminant_eq_of_rank hnum hrab
    have hdac := typeDiscriminant_eq_of_rank hnum (hrab.trans hrbc)
    have hdbc := hdab.symm.trans hdac
    rw [cmp, if_pos hdab] at hab
    rw [cmp, if_pos hdbc] at hbc
    rw [cmp, if_pos hdac]
    cases hvec : a.isVector with
    | true =>
      cases a with
      | vector =>
        cases b <;> first | (cases hdab; done) | skip
        cases c <;> first | (cases hdac; done) | exact h.vectors_trans ha hb hc hab hbc
      | _ => cases hvec
    | false =>
      have hnumb : b.isNumeric = false := by
        cases a <;> cases b <;> first | rfl | (cases hnum; done) | cases hdab
      have hvecb : b.isVector = false := by
        cases a <;> cases b <;> first | rfl | (cases hvec; done) | cases hdab
      rw [sameTypeCmp_eq_fields hnum hvec hdab] at hab
      rw [sameTypeCmp_eq_fields hnumb hvecb hdbc] at hbc
      rw [sameTypeCmp_eq_fields hnum hvec hdac]
      exact (totalOn_fields S).trans a ha b hb c hc hab hbc

/-- **Orderly values are totally ordered.** -/
lemma Orderly.totalOn : TotalOn cmp S := by
  refine ⟨fun a _ b _ => cmp_swap a b, ?_⟩
  intro a ha b hb c hc hab hbc
  have hrank : ∀ x y : FlakeValue, x.cmp y ≠ .gt → x.rank ≤ y.rank := by
    intro x y hxy
    by_contra hlt
    rw [cmp_of_rank_ne (by omega)] at hxy
    exact hxy (compare_gt_iff_gt.2 (not_le.1 hlt))
  have h₁ := hrank a b hab
  have h₂ := hrank b c hbc
  by_cases hac : a.rank = c.rank
  · exact h.same_rank_trans ha hb hc (by omega) (by omega) hab hbc
  · rw [cmp_of_rank_ne hac, compare_lt_iff_lt.2 (by omega)]
    exact nofun

end

/-- Totally ordered values are orderly: each clause forbids one kind of cycle. -/
lemma orderly_of_orderOn (h : OrderOn cmp S) : Orderly S := by
  refine ⟨?_, ?_, ?_, ?_⟩
  · intro s hs hes x hx y hy p q hp hq hbelow habove
    have hxs : x.cmp (double s) = .lt := by rw [cmp_finite_special hes hp, hbelow]; rfl
    have hsy : (double s).cmp y = .lt := by rw [cmp_special hes hq, habove]; rfl
    have hxy := h.less x hx _ hs y hy hxs hsy
    rw [cmp_finite_eq_compare hp hq] at hxy
    exact compare_lt_iff_lt.1 hxy
  · intro n p m hn hp hm hst
    have hnm : cmpF64 n m = .lt := h.less _ hn _ hp _ hm hst.below hst.above
    have hmn := hst.across
    rw [cmpF64_swap, hnm] at hmn
    exact hmn rfl
  · intro p i n hp hi hn hnan hpos hinf hneg
    by_contra hfits
    rw [not_eq_false] at hfits
    have hni : i.isNan = false := by
      rw [← not_eq_true, isNan_iff]
      exact fun h => h.2 (isInfinite_iff.1 hinf).2
    have hpi : (double p).cmp (double i) = .lt := by
      show cmpF64 p i = _
      rw [cmpF64_nan_number hnan hni, hpos, hneg]
      rfl
    have hin : (double i).cmp (long n) = .lt := by
      rw [cmp_special (isInfinite_iff.1 hinf).1 rfl, above, hinf, hneg, hfits]
      rfl
    have hpn := h.less _ hp _ hi _ hn hpi hin
    have hpinf : p.isInfinite = false := by
      rw [← not_eq_true, isInfinite_iff]
      exact fun h => (isNan_iff.1 hnan).2 h.2
    rw [cmp_special (isNan_iff.1 hnan).1 rfl, above, hpinf] at hpn
    cases hpn
  · intro u v w hu hv hw hclash
    obtain ⟨huv, hvw, huw⟩ := hclash.cycle
    have hitems : (vector u).cmp (vector v) = .lt → (vector v).cmp (vector w) = .lt →
        (vector u).cmp (vector w) = .lt := h.less _ hu _ hv _ hw
    cases hclash <;> exact huw (hitems huv hvw)

end Orderly

end FlakeValue

/-! ## The index comparators -/

lemma totalOn_cmpOption {α : Type} {cmp} (h : ∀ l, TotalOn cmp l)
    (l : List (Option α)) : TotalOn (cmpOption cmp) l := by
  constructor
  · intro a _ b _
    cases a with
    | none => cases b <;> rfl
    | some x =>
      cases b with
      | none => rfl
      | some y => exact (h [x, y]).swap x (by simp) y (by simp)
  · intro a _ b _ c _ hab hbc
    cases a with
    | none => cases c <;> simp [cmpOption]
    | some x =>
      cases b with
      | none => exact absurd rfl hab
      | some y =>
        cases c with
        | none => exact absurd rfl hbc
        | some z => exact (h [x, y, z]).trans x (by simp) y (by simp) z (by simp) hab hbc

lemma totalOn_sid (f : Flake → Sid) (fs : List Flake) : TotalOn (fun a b => (f a).cmp (f b)) fs :=
  (totalOn_compare (fun a => (f a).namespaceCode) fs).andThen
    (totalOn_compare (fun a => (f a).name) fs)

lemma totalOn_meta (fs : List Flake) : TotalOn Flake.cmpMeta fs := by
  have hmeta : ∀ l, TotalOn FlakeMeta.cmp l := by
    intro l
    have hi : TotalOn (fun a b : FlakeMeta => cmpOption compare a.i b.i) l :=
      (totalOn_cmpOption (totalOn_compare id) _).comap
    have hlang : TotalOn (fun a b : FlakeMeta => cmpOption compare a.lang b.lang) l :=
      (totalOn_cmpOption (totalOn_compare id) _).comap
    exact hi.andThen hlang
  exact (totalOn_cmpOption hmeta _).comap

lemma totalOn_index (order : IndexType)
    (h : TotalOn FlakeValue.cmp (fs.map Flake.o)) : TotalOn order.compare fs := by
  have hs := totalOn_sid Flake.s fs
  have hp := totalOn_sid Flake.p fs
  have ho : TotalOn Flake.cmpObject fs := h.comap.andThen (totalOn_sid Flake.dt fs)
  have ht := totalOn_compare Flake.t fs
  have hop := totalOn_compare Flake.op fs
  have hm := totalOn_meta fs
  cases order with
  | spot => exact ((((hs.andThen hp).andThen ho).andThen ht).andThen hop).andThen hm
  | psot => exact ((((hp.andThen hs).andThen ho).andThen ht).andThen hop).andThen hm
  | post => exact ((((hp.andThen ho).andThen hs).andThen ht).andThen hop).andThen hm
  | opst => exact ((((ho.andThen hp).andThen hs).andThen ht).andThen hop).andThen hm

/-- The values of `S` are totally ordered, and the flakes with such objects are in every index. -/
structure TotallyOrdered (S : List FlakeValue) : Prop where
  values : OrderOn FlakeValue.cmp S
  flakes : ∀ (order : IndexType) (fs : List Flake), (∀ f ∈ fs, f.o ∈ S) →
    OrderOn order.compare fs

/-- **Exactly the orderly values are totally ordered**, as values and as objects of flakes in
each of the four indexes. -/
theorem cmp_total_iff (S : List FlakeValue) : TotallyOrdered S ↔ FlakeValue.Orderly S := by
  constructor
  · intro h
    exact orderly_of_orderOn h.values
  · intro h
    refine ⟨totalOn_iff_orderOn.1 h.totalOn, ?_⟩
    intro order fs hfs
    refine totalOn_iff_orderOn.1 (totalOn_index order (h.totalOn.mono ?_))
    intro v hv
    obtain ⟨f, hf, rfl⟩ := List.mem_map.1 hv
    exact hfs f hf

/-- Zero is below a large integer, that is below negative infinity because it needs a decimal
and infinity has none, and negative infinity is below zero. -/
theorem cmp_cycle : (FlakeValue.long 0).cmp (.long 1152921504606846976) = .lt ∧
      (long 1152921504606846976).cmp (.double ⟨0xFFF0000000000000⟩) = .lt ∧
      (double ⟨0xFFF0000000000000⟩).cmp (.long 0) = .lt ∧
      ¬ TotallyOrdered [.long 0, .long 1152921504606846976, .double ⟨0xFFF0000000000000⟩] := by
  have h₁ : (FlakeValue.long 0).cmp (.long 1152921504606846976) = .lt := by decide +kernel
  have h₂ : (long 1152921504606846976).cmp (.double ⟨0xFFF0000000000000⟩) = .lt := by decide +kernel
  have h₃ : (double ⟨0xFFF0000000000000⟩).cmp (.long 0) = .lt := by decide +kernel
  refine ⟨h₁, h₂, h₃, ?_⟩
  intro h
  have h₄ := h.values.less _ (by simp) _ (by simp) _ (by simp) h₁ h₂
  rw [FlakeValue.cmp_swap, h₃] at h₄
  cases h₄

end Fluree

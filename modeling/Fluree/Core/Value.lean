import Mathlib.Algebra.Order.Ring.Int
import Fluree.Lib.Decimal

/-!
# Object values

`FlakeValue` is the object of a fact: references, numbers of four representations, temporal
values, strings, vectors. `FlakeValue.cmp` orders them for the in-memory indexes. Numbers of
different representations are compared by value, everything else by type first.

A double is its bit pattern. Its exact value and those of the arbitrary-precision types are
fractions of integers (`Exact`), so every comparison computes.
-/

namespace Fluree

section

/-- Interned IRI: namespace code and name. -/
structure Sid where
  namespaceCode : UInt16
  name : String
  deriving DecidableEq

def Sid.cmp (a b : Sid) : Ordering :=
  (compare a.namespaceCode b.namespaceCode).then (compare a.name b.name)

/-! ## Exact numbers -/

/-- The number `num / den`. -/
structure Exact where
  num : ℤ
  den : ℕ

namespace Exact

def ofInt (n : ℤ) : Exact := ⟨n, 1⟩

/-- `digits * 10^(-scale)`. -/
def ofDecimal (digits scale : ℤ) : Exact :=
  if 0 ≤ scale then ⟨digits, 10 ^ scale.toNat⟩ else ⟨digits * 10 ^ (-scale).toNat, 1⟩

def cmp (a b : Exact) : Ordering := compare (a.num * b.den) (b.num * a.den)

end Exact

/-- A 64-bit IEEE 754 number by its bits. -/
structure F64 where
  bits : UInt64
  deriving DecidableEq

open F64 Ordering

namespace F64

variable (x : F64)

def negative : Bool := x.bits.toNat ≥ 2 ^ 63

def exponent : ℕ := x.bits.toNat / 2 ^ 52 % 2 ^ 11

def fraction : ℕ := x.bits.toNat % 2 ^ 52

def isNan : Bool := x.exponent == 2047 && x.fraction != 0

def isInfinite : Bool := x.exponent == 2047 && x.fraction == 0

/-- The value of a finite number in units of `2^(-1074)`. -/
def scaled : ℤ :=
  let magnitude : ℕ :=
    if x.exponent = 0 then x.fraction else (2 ^ 52 + x.fraction) * 2 ^ (x.exponent - 1)
  if x.negative then -magnitude else magnitude

/-- The exact value; `none` for NaN and the infinities. -/
def exactValue : Option Exact := if x.exponent = 2047 then none else some ⟨x.scaled, 2 ^ 1074⟩

/-- An exact number against a double; a NaN compares with nothing. -/
def cmpExact (a : Exact) (b : F64) : Option Ordering :=
  if b.isNan then none
  else if b.isInfinite then some (if b.negative then .gt else .lt)
  else b.exactValue.map a.cmp

def partialCmp (a b : F64) : Option Ordering :=
  if a.isNan || b.isNan then none
  else match a.exactValue with
    | some x => cmpExact x b
    | none =>
      if b.isInfinite then some (compare b.negative a.negative)
      else some (if a.negative then .lt else .gt)

end F64

/-! ## Values -/

/-- The object of a fact. Temporal values are what their comparison reads. -/
inductive FlakeValue where
  | null
  | ref (sid : Sid)
  | boolean (b : Bool)
  | long (n : Int64)
  | bigInt (n : ℤ)
  | double (x : F64)
  | decimal (digits scale : ℤ)
  | date (days : ℤ)
  | time (secs nanos : ℕ)
  | dateTime (secs : ℤ) (nanos : ℕ)
  | gYear (year : ℤ)
  | gYearMonth (year : ℤ) (month : ℕ)
  | gMonth (month : ℕ)
  | gDay (day : ℕ)
  | gMonthDay (month day : ℕ)
  | yearMonthDuration (months : ℤ)
  | dayTimeDuration (micros : ℤ)
  | duration (months micros : ℤ)
  | string (s : String)
  | json (s : String)
  | geoPoint (bits : UInt64)
  | vector (xs : List F64)
  deriving DecidableEq

namespace FlakeValue

def typeDiscriminant : FlakeValue → ℕ
  | null => 0
  | ref _ => 1
  | boolean _ => 2
  | long _ => 3
  | bigInt _ => 4
  | double _ => 5
  | decimal _ _ => 6
  | date _ => 7
  | time _ _ => 8
  | dateTime _ _ => 9
  | gYear _ => 10
  | gYearMonth _ _ => 11
  | gMonth _ => 12
  | gDay _ => 13
  | gMonthDay _ _ => 14
  | yearMonthDuration _ => 15
  | dayTimeDuration _ => 16
  | duration _ _ => 17
  | string _ => 18
  | json _ => 19
  | geoPoint _ => 20
  | vector _ => 21

def isNumeric : FlakeValue → Bool
  | long _ => true
  | double _ => true
  | bigInt _ => true
  | decimal _ _ => true
  | _ => false

def isTemporal : FlakeValue → Bool
  | dateTime _ _ => true
  | date _ => true
  | time _ _ => true
  | gYear _ => true
  | gYearMonth _ _ => true
  | gMonth _ => true
  | gDay _ => true
  | gMonthDay _ _ => true
  | _ => false

def isDuration : FlakeValue → Bool
  | yearMonthDuration _ => true
  | dayTimeDuration _ => true
  | duration _ _ => true
  | _ => false

/-- Within 2^53, where every integer is a double. The absolute value wraps. -/
def i64FitsF64 (v : Int64) : Bool := v.abs ≤ 9007199254740992

/-- A long against a double: large integers are compared as exact decimals. -/
def cmpLongDouble (a : Int64) (b : F64) : Option Ordering :=
  if i64FitsF64 a then cmpExact (.ofInt a.toInt) b
  else b.exactValue.map (Exact.cmp (.ofInt a.toInt))

/-- Numbers by their mathematical value; `none` when one is no number, or when a number that
needs an exact decimal is compared with a NaN or an infinity. -/
def numericCmp : FlakeValue → FlakeValue → Option Ordering
  | long a, long b => some (compare a.toInt b.toInt)
  | double a, double b => (a.partialCmp b).or (some (compare a.bits b.bits))
  | bigInt a, bigInt b => some (compare a b)
  | decimal d s, decimal d' s' => some (Exact.cmp (.ofDecimal d s) (.ofDecimal d' s'))
  | long a, double b => cmpLongDouble a b
  | double a, long b => (cmpLongDouble b a).map swap
  | long a, bigInt b => some (compare a.toInt b)
  | bigInt a, long b => some (compare a b.toInt)
  | long a, decimal d s => some (Exact.cmp (.ofInt a.toInt) (.ofDecimal d s))
  | decimal d s, long b => some (Exact.cmp (.ofDecimal d s) (.ofInt b.toInt))
  | double a, bigInt b => a.exactValue.map (fun x => Exact.cmp x (.ofInt b))
  | bigInt a, double b => (b.exactValue.map (fun x => Exact.cmp x (.ofInt a))).map swap
  | double a, decimal d s => a.exactValue.map (fun x => Exact.cmp x (.ofDecimal d s))
  | decimal d s, double b => (b.exactValue.map (fun x => Exact.cmp x (.ofDecimal d s))).map swap
  | bigInt a, decimal d s => some (Exact.cmp (.ofInt a) (.ofDecimal d s))
  | decimal d s, bigInt b => some (Exact.cmp (.ofDecimal d s) (.ofInt b))
  | _, _ => none

/-- Doubles with the bit pattern deciding where a NaN is involved. -/
def cmpF64 (a b : F64) : Ordering := (a.partialCmp b).getD (compare a.bits b.bits)

/-- Lexicographic; a proper initial part comes first. -/
def cmpVectorItems : List F64 → List F64 → Ordering
  | [], [] => .eq
  | [], _ :: _ => .lt
  | _ :: _, [] => .gt
  | x :: xs, y :: ys => (cmpF64 x y).then (cmpVectorItems xs ys)

def cmpVector (a b : List F64) : Ordering :=
  if a.isEmpty && b.isEmpty then .eq
  else if a.isEmpty then .gt
  else if b.isEmpty then .lt
  else cmpVectorItems a b

def sameTypeCmp : FlakeValue → FlakeValue → Ordering
  | ref a, ref b => a.cmp b
  | boolean a, boolean b => compare a b
  | long a, long b => compare a.toInt b.toInt
  | double a, double b => cmpF64 a b
  | bigInt a, bigInt b => compare a b
  | decimal d s, decimal d' s' => Exact.cmp (.ofDecimal d s) (.ofDecimal d' s')
  | date a, date b => compare a b
  | time s n, time s' n' => (compare s s').then (compare n n')
  | dateTime s n, dateTime s' n' => (compare s s').then (compare n n')
  | gYear a, gYear b => compare a b
  | gYearMonth y m, gYearMonth y' m' => (compare y y').then (compare m m')
  | gMonth a, gMonth b => compare a b
  | gDay a, gDay b => compare a b
  | gMonthDay m d, gMonthDay m' d' => (compare m m').then (compare d d')
  | yearMonthDuration a, yearMonthDuration b => compare a b
  | dayTimeDuration a, dayTimeDuration b => compare a b
  | duration m u, duration m' u' => (compare m m').then (compare u u')
  | string a, string b => compare a b
  | json a, json b => compare a b
  | geoPoint a, geoPoint b => compare a b
  | vector a, vector b => cmpVector a b
  | _, _ => .eq

/-- Same type: by value of the type. Two numbers: by mathematical value, where that is defined.
Otherwise by type. -/
def cmp (a b : FlakeValue) : Ordering :=
  if a.typeDiscriminant = b.typeDiscriminant then sameTypeCmp a b
  else (numericCmp a b).getD (compare a.typeDiscriminant b.typeDiscriminant)

end FlakeValue

/-! ## A value equals itself -/

lemma Sid.cmp_self (a : Sid) : a.cmp a = .eq := by simp [Sid.cmp]

lemma F64.exactValue_eq_none {x : F64} : x.exactValue = none ↔ x.exponent = 2047 := by
  unfold exactValue
  by_cases h : x.exponent = 2047
  · rw [if_pos h]
    exact iff_of_true rfl h
  · rw [if_neg h]
    exact iff_of_false (Option.some_ne_none _) h

lemma F64.partialCmp_self {x : F64} (h : x.isNan = false) : x.partialCmp x = some eq := by
  unfold partialCmp
  rw [h]
  cases he : x.exactValue with
  | some =>
    have hfin : x.exponent ≠ 2047 := fun hexp => by simp [exactValue_eq_none.2 hexp] at he
    have hinf : x.isInfinite = false := by simp [isInfinite, hfin]
    simp [cmpExact, h, hinf, he, Exact.cmp]
  | none =>
    have hexp := exactValue_eq_none.1 he
    have hinf : x.isInfinite = true := by
      simp only [isNan, hexp, beq_self_eq_true, Bool.true_and, bne_eq_false_iff_eq] at h
      simp [isInfinite, hexp, h]
    simp [hinf]

namespace FlakeValue

lemma cmpF64_self (x : F64) : cmpF64 x x = .eq := by
  unfold cmpF64
  cases hn : x.isNan with
  | true => simp [partialCmp, hn]
  | false => simp [partialCmp_self hn]

lemma cmpVector_self (xs : List F64) : cmpVector xs xs = .eq := by
  have hitems : ∀ ys : List F64, cmpVectorItems ys ys = .eq := by
    intro ys
    induction ys with
    | nil => rfl
    | cons _ _ ih => rw [cmpVectorItems, cmpF64_self, ih]; rfl
  cases xs with
  | nil => rfl
  | cons x xs => simpa [cmpVector] using hitems (x :: xs)

lemma cmp_self (v : FlakeValue) : v.cmp v = .eq := by
  unfold cmp
  rw [if_pos rfl]
  cases v <;> simp [sameTypeCmp, Sid.cmp_self, cmpF64_self, Exact.cmp, cmpVector_self]

end FlakeValue

end

/-!
## Equality and hash of object values

`FlakeValue.eq` and `FlakeValue.hash`, next to `FlakeValue.cmp`. Numbers of different
representations can be equal, so the hash brings each to a form that all share: the integer,
or the digits and scale of the normalized decimal. A hash is the sequence of items that is
fed to the hasher.
-/

open Lib Decimal

/-- Months and microseconds that disagree in direction are not comparable. -/
def durationPartialCmp (months micros months' micros' : ℤ) : Option Ordering :=
  match compare months months', compare micros micros' with
  | .eq, microCmp => some microCmp
  | monthCmp, .eq => some monthCmp
  | .lt, .lt => some .lt
  | .gt, .gt => some .gt
  | _, _ => none

inductive HashItem where
  | byte (n : ℕ)
  | bool (b : Bool)
  | int (n : ℤ)
  | text (s : String)
  /-- The two's complement bytes of an integer, which determine it. -/
  | signedBytes (n : ℤ)
  deriving DecidableEq

namespace F64

/-- `fract() == 0.0`, for a finite number. -/
def isIntegral (x : F64) : Bool := x.scaled % 2 ^ 1074 == 0

/-- Between `i64::MIN as f64` and `i64::MAX as f64`, which is `2^63`. -/
def inI64Range (x : F64) : Bool :=
  decide (-2 ^ 63 * 2 ^ 1074 ≤ x.scaled) && decide (x.scaled ≤ 2 ^ 63 * 2 ^ 1074)

/-- The cast of an integral number to `i64`, which saturates. -/
def asI64 (x : F64) : ℤ := max (-2 ^ 63) (min (2 ^ 63 - 1) (x.scaled / 2 ^ 1074))

def decimalDigits (x : F64) : ℤ := x.scaled * 5 ^ 1074

end F64

/-- A decimal that is an integer is fed as the integers are, any other by its normalized scale
and digits. -/
def hashDecimalCanonical (digits scale : ℤ) : List HashItem :=
  let (digits, scale) := normalized digits scale
  if isInteger digits scale then
    [.byte 0, .signedBytes (withScaleZero digits scale)]
  else [.byte 1, .int scale, .signedBytes digits]

namespace FlakeValue

/-- Temporal values and durations of one type; a general duration by its partial order. -/
def temporalCmp : FlakeValue → FlakeValue → Option Ordering
  | dateTime s n, dateTime s' n' => some ((compare s s').then (compare n n'))
  | date a, date b => some (compare a b)
  | time s n, time s' n' => some ((compare s s').then (compare n n'))
  | gYear a, gYear b => some (compare a b)
  | gYearMonth y m, gYearMonth y' m' => some ((compare y y').then (compare m m'))
  | gMonth a, gMonth b => some (compare a b)
  | gDay a, gDay b => some (compare a b)
  | gMonthDay m d, gMonthDay m' d' => some ((compare m m').then (compare d d'))
  | yearMonthDuration a, yearMonthDuration b => some (compare a b)
  | dayTimeDuration a, dayTimeDuration b => some (compare a b)
  | duration m u, duration m' u' => durationPartialCmp m u m' u'
  | _, _ => none

/-- Numbers by value, temporal values and durations by their comparison, the other types field
by field. Vectors are equal when their bits are. -/
def eq (a b : FlakeValue) : Bool :=
  if a.isNumeric && b.isNumeric then numericCmp a b == some .eq
  else if a.isTemporal && b.isTemporal then temporalCmp a b == some .eq
  else if a.isDuration && b.isDuration then temporalCmp a b == some .eq
  else match a, b with
    | null, null => true
    | ref a, ref b => a == b
    | boolean a, boolean b => a == b
    | string a, string b => a == b
    | json a, json b => a == b
    | vector a, vector b => a.length == b.length && (a.zip b).all (fun (x, y) => x.bits == y.bits)
    | geoPoint a, geoPoint b => a == b
    | _, _ => false

def hashDouble (x : F64) : List HashItem :=
  if x.isNan then [.byte 2]
  else if x.isInfinite then [.byte 3, .bool (!x.negative)]
  else if x.isIntegral && x.inI64Range then [.byte 0, .signedBytes x.asI64]
  else hashDecimalCanonical x.decimalDigits 1074

def hash (v : FlakeValue) : List HashItem :=
  let tag : HashItem := .byte v.typeDiscriminant
  match v with
  | long n => [.byte 0, .signedBytes n.toInt]
  | double x => hashDouble x
  | bigInt n => [.byte 0, .signedBytes n]
  | decimal digits scale => hashDecimalCanonical digits scale
  | null => [tag]
  | ref sid => [tag, .int sid.namespaceCode.toNat, .text sid.name]
  | boolean b => [tag, .bool b]
  | dateTime secs nanos => [tag, .int secs, .int nanos]
  | date days => [tag, .int days]
  | time secs nanos => [tag, .int secs, .int nanos]
  | gYear year => [tag, .int year]
  | gYearMonth year month => [tag, .int year, .int month]
  | gMonth month => [tag, .int month]
  | gDay day => [tag, .int day]
  | gMonthDay month day => [tag, .int month, .int day]
  | yearMonthDuration months => [tag, .int months]
  | dayTimeDuration micros => [tag, .int micros]
  | duration months micros => [tag, .int months, .int micros]
  | string s => [tag, .text s]
  | json s => [tag, .text s]
  | vector xs => tag :: .int xs.length :: xs.map (fun x => .int x.bits.toNat)
  | geoPoint bits => [tag, .int bits.toNat]

end FlakeValue

end Fluree

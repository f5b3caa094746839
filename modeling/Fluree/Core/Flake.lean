import Fluree.Core.Value
import Mathlib.Data.Int.Log
import Mathlib.Data.Rat.Floor

/-!
# Flakes and their index orders

A flake is one assert or retract of a fact in memory. Its identity is `(s, p, o, dt, m)`;
the four index orders arrange these fields differently and break ties by `t`, `op` and the
metadata.
-/

namespace Fluree

/-- Language tag and list index of a value. -/
structure FlakeMeta where
  lang : Option String
  i : Option Int32
  deriving DecidableEq

/-- Absent fields come first. -/
def cmpOption {α : Type} (cmp : α → α → Ordering) : Option α → Option α → Ordering
  | none, none => .eq
  | none, some _ => .lt
  | some _, none => .gt
  | some a, some b => cmp a b

lemma cmpOption_self {α : Type} {cmp} (h : ∀ a, cmp a a = .eq)
    (o : Option α) : cmpOption cmp o o = .eq := by
  cases o with
  | none => rfl
  | some a => exact h a

/-- List index first, then the language tag. -/
def FlakeMeta.cmp (a b : FlakeMeta) : Ordering :=
  (cmpOption compare a.i b.i).then (cmpOption compare a.lang b.lang)

lemma FlakeMeta.cmp_self (m : FlakeMeta) : m.cmp m = .eq := by
  have hi : cmpOption compare m.i m.i = .eq :=
    cmpOption_self (fun _ => Std.ReflCmp.compare_self) m.i
  have hl : cmpOption compare m.lang m.lang = .eq :=
    cmpOption_self (fun _ => Std.ReflCmp.compare_self) m.lang
  rw [FlakeMeta.cmp, hi, hl]
  rfl

structure Flake where
  g : Option Sid
  s : Sid
  p : Sid
  o : FlakeValue
  dt : Sid
  t : ℤ
  op : Bool
  m : Option FlakeMeta
  deriving DecidableEq

inductive IndexType where
  | spot
  | psot
  | post
  | opst

namespace Flake

/-- Value first, then datatype. -/
def cmpObject (a b : Flake) : Ordering := (a.o.cmp b.o).then (a.dt.cmp b.dt)

def cmpMeta (a b : Flake) : Ordering := cmpOption FlakeMeta.cmp a.m b.m

def cmpSpot (a b : Flake) : Ordering :=
  (((((a.s.cmp b.s).then (a.p.cmp b.p)).then (cmpObject a b)).then (compare a.t b.t)).then
    (compare a.op b.op)).then (cmpMeta a b)

def cmpPsot (a b : Flake) : Ordering :=
  (((((a.p.cmp b.p).then (a.s.cmp b.s)).then (cmpObject a b)).then (compare a.t b.t)).then
    (compare a.op b.op)).then (cmpMeta a b)

def cmpPost (a b : Flake) : Ordering :=
  (((((a.p.cmp b.p).then (cmpObject a b)).then (a.s.cmp b.s)).then (compare a.t b.t)).then
    (compare a.op b.op)).then (cmpMeta a b)

def cmpOpst (a b : Flake) : Ordering :=
  (((((cmpObject a b).then (a.p.cmp b.p)).then (a.s.cmp b.s)).then (compare a.t b.t)).then
    (compare a.op b.op)).then (cmpMeta a b)

end Flake

def IndexType.compare : IndexType → Flake → Flake → Ordering
  | .spot => Flake.cmpSpot
  | .psot => Flake.cmpPsot
  | .post => Flake.cmpPost
  | .opst => Flake.cmpOpst

/-!
## Arithmetic on doubles and packed coordinates

`F64.ofRat` rounds a number to the nearest double, ties to even; a sum, product or quotient of
doubles is the rounded exact result. A point is packed as two 30-bit fractions of the latitude
and longitude range.
-/

namespace F64

def isFinite (x : F64) : Bool := x.exponent != 2047

def value (x : F64) : ℚ := x.scaled / 2 ^ 1074

/-- The nearest integer, ties to even. -/
def roundHalfEven (x : ℚ) : ℕ :=
  let below := ⌊x⌋₊
  let part := x - below
  if part < 1 / 2 then below
  else if 1 / 2 < part then below + 1
  else if below % 2 = 0 then below else below + 1

/-- The exponent with which a positive number is written, not below that of subnormal numbers. -/
def exponentOf (m : ℚ) : ℤ := max (Int.log 2 m) (-1022)

/-- The bits of a number that is not negative. A carry out of the fraction raises the exponent
by itself; past the largest number lies infinity. -/
def magnitudeBits (m : ℚ) : ℕ :=
  if m = 0 then 0
  else
    let e := exponentOf m
    min (2047 * 2 ^ 52) ((e + 1022).toNat * 2 ^ 52 + roundHalfEven (m / 2 ^ (e - 52)))

def ofRat (q : ℚ) : F64 :=
  if q < 0 then ⟨UInt64.ofNat (2 ^ 63 + magnitudeBits (-q))⟩ else ⟨UInt64.ofNat (magnitudeBits q)⟩

end F64

def GEO_MAX_ENCODED : ℕ := 2 ^ 30 - 1

/-- A 30-bit fraction of the range from `-half` to `half`. -/
def decodeCoordinate (half encoded : ℕ) : F64 :=
  let fraction := F64.ofRat (encoded / GEO_MAX_ENCODED)
  let scaled := F64.ofRat (fraction.value * (2 * half : ℕ))
  F64.ofRat (scaled.value - half)

def encodeCoordinate (half : ℕ) (x : F64) : ℕ :=
  let shifted := F64.ofRat (x.value + half)
  let norm := F64.ofRat (shifted.value / (2 * half : ℕ))
  -- `round` sends ties away from zero
  ⌊(F64.ofRat (norm.value * GEO_MAX_ENCODED)).value + 1 / 2⌋₊

def inRange (half : ℕ) (x : F64) : Bool :=
  x.isFinite && decide (-(half : ℚ) ≤ x.value) && decide (x.value ≤ half)

/-- `none` is the error for a coordinate that is out of range. -/
def encodeGeoPoint (lat lng : F64) : Option UInt64 :=
  if !inRange 90 lat then none
  else if !inRange 180 lng then none
  else some (UInt64.ofNat (encodeCoordinate 90 lat * 2 ^ 30 ||| encodeCoordinate 180 lng))

def decodeGeoPoint (bits : UInt64) : F64 × F64 :=
  (decodeCoordinate 90 (bits.toNat / 2 ^ 30 % 2 ^ 30), decodeCoordinate 180 (bits.toNat % 2 ^ 30))

end Fluree

/-!
# Double precision

IEEE 754 binary64 numbers, held by their 64 bits. Every operation is exact arithmetic on naturals
followed by one rounding to the nearest double, a tie going to the even significand.
-/

namespace QueryTree

structure Binary64 where
  bits : UInt64
deriving DecidableEq, Inhabited

namespace Binary64

def negative (x : Binary64) : Bool := decide (0x8000000000000000 ≤ x.bits.toNat)

/-- The biased exponent, 11 bits. -/
def exponentField (x : Binary64) : Nat := x.bits.toNat / 0x10000000000000 % 0x800

/-- The stored part of the significand, 52 bits. -/
def fraction (x : Binary64) : Nat := x.bits.toNat % 0x10000000000000

/-- All bits but the sign. -/
def magnitude (x : Binary64) : Nat := x.bits.toNat % 0x8000000000000000

def isFinite (x : Binary64) : Bool := decide (x.exponentField < 2047)

def isNaN (x : Binary64) : Bool := decide (x.exponentField = 2047 ∧ x.fraction ≠ 0)

def isZero (x : Binary64) : Bool := decide (x.magnitude = 0)

/-- Numeric equality: a NaN differs from everything, and the two zeros agree. -/
def numericallyEqual (x y : Binary64) : Bool :=
  !x.isNaN && !y.isNaN && (x == y || (x.isZero && y.isZero))

/-- The significand `m` of a finite double `m · 2 ^ scale`. -/
def significand (x : Binary64) : Nat :=
  if x.exponentField = 0 then x.fraction else 0x10000000000000 + x.fraction

/-- The exponent `q` of a finite double `significand · 2 ^ q`. -/
def scale (x : Binary64) : Int := (max x.exponentField 1 : Nat) - 1075

/-- The double of a given sign whose other 63 bits are `magnitude`. -/
def ofMagnitude (negative : Bool) (magnitude : Nat) : Binary64 :=
  ⟨UInt64.ofNat (if negative then 0x8000000000000000 + magnitude else magnitude)⟩

/-- The 63 bits of infinity; a larger pattern is a NaN. -/
def infinityMagnitude : Nat := 2047 * 0x10000000000000

/-- The quotient rounded to the nearest natural, a tie going to the even one. -/
def roundQuotient (num den : Nat) : Nat :=
  let whole := num / den
  let rest := num % den
  if 2 * rest < den then whole
  else if den < 2 * rest then whole + 1
  else whole + whole % 2

/-- Numerator and denominator of `num / den` counted in units of `2 ^ q`. -/
def inUnits (num den : Nat) (q : Int) : Nat × Nat :=
  (num <<< (-q).toNat, den <<< q.toNat)

/-- The exponent at which `num / den` fills the 53 bits of a significand, but no less than that of
the smallest double. -/
def unitExponent (num den : Nat) : Int :=
  let q : Int := max ((num.log2 : Int) - den.log2 - 53) (-1074)
  let (n, d) := inUnits num den q
  if n / d < 0x20000000000000 then q else q + 1

/-- The double nearest to `num / den`; beyond the largest one it is infinite. -/
def ofRatio (negative : Bool) (num den : Nat) : Binary64 :=
  if num = 0 then ofMagnitude negative 0
  else
    let q := unitExponent num den
    let (n, d) := inUnits num den q
    ofMagnitude negative
      (min ((q + 1074).toNat * 0x10000000000000 + roundQuotient n d) infinityMagnitude)

def ofNat (n : Nat) : Binary64 := ofRatio false n 1

/-- Numerator and denominator of the absolute value of a finite double. -/
def ratio (x : Binary64) : Nat × Nat :=
  (x.significand <<< x.scale.toNat, 1 <<< (-x.scale).toNat)

/-- The product of two finite positive doubles. -/
def times (x y : Binary64) : Binary64 :=
  ofRatio false (x.ratio.1 * y.ratio.1) (x.ratio.2 * y.ratio.2)

/-- The quotient of a finite double by a positive one, both without sign. -/
def dividedBy (x y : Binary64) : Binary64 :=
  ofRatio false (x.ratio.1 * y.ratio.2) (x.ratio.2 * y.ratio.1)

def negate (x : Binary64) : Binary64 := ofMagnitude (!x.negative) x.magnitude

/-- Widening from 32 bits loses nothing. -/
def ofBinary32 (bits : UInt32) : Binary64 :=
  let negative := decide (0x80000000 ≤ bits.toNat)
  let exponent := bits.toNat / 0x800000 % 0x100
  let fraction := bits.toNat % 0x800000
  if exponent = 255 then ofMagnitude negative (infinityMagnitude + fraction <<< 29)
  else
    let significand := if exponent = 0 then fraction else 0x800000 + fraction
    ofRatio negative (significand <<< max exponent 1) (1 <<< 150)

end Binary64

end QueryTree

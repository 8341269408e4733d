import QueryTree.Number.Binary64

/-!
# Decimal numbers

An exact decimal is a whole mantissa over a power of ten. A number in scientific notation is read
in rounded steps: its digits, the power of ten, and their product or quotient each go to the
nearest double, so that the result may be one unit off the exact value.
-/

namespace QueryTree

/-- The number `mantissa · 10 ^ -scale`. -/
structure Decimal where
  mantissa : Int
  scale : Nat
deriving DecidableEq

namespace Decimal

/-- The whole number that a decimal equals, if there is one. -/
def whole? (d : Decimal) : Option Int :=
  let unit : Int := (Nat.pow 10 d.scale : Nat)
  if d.mantissa % unit = 0 then some (d.mantissa / unit) else none

def nearest (d : Decimal) : Binary64 :=
  Binary64.ofRatio (decide (d.mantissa < 0)) d.mantissa.natAbs (Nat.pow 10 d.scale)

end Decimal

namespace Binary64

/-- The largest power of ten used in one step. -/
def greatestPower : Nat := 308

/-- Division by `10 ^ exponent`, one power at a time until the quotient is zero. -/
def shrink (x : Binary64) (exponent : Nat) : Binary64 :=
  if exponent ≤ greatestPower then x.dividedBy (ofNat (Nat.pow 10 exponent))
  else if x.isZero then x
  else shrink (x.dividedBy (ofNat (Nat.pow 10 greatestPower))) (exponent - greatestPower)
termination_by exponent
decreasing_by simp only [greatestPower] at *; omega

/-- The double read for `digits · 10 ^ exponent`. -/
def ofScientific (digits : Nat) (exponent : Int) : Binary64 :=
  let x := ofNat digits
  if exponent < 0 then x.shrink exponent.natAbs
  else if exponent.natAbs ≤ greatestPower then x.times (ofNat (Nat.pow 10 exponent.natAbs))
  else if x.isZero then x
  else ofMagnitude false infinityMagnitude

end Binary64

end QueryTree

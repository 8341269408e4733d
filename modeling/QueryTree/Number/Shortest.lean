import QueryTree.Number.Binary64

/-!
# The shortest decimal text of a double

Among the decimals that read back as a given double, its text uses one with the fewest digits, and
of those the nearest. Written as `d.ddd · 10 ^ e` it is positional for `-5 ≤ e ≤ 15`, with one digit
or more after the point, and has an exponent with its sign otherwise.
-/

namespace QueryTree.Shortest

/-- The decimals that read back as `value / den`: those between `lower / den` and `upper / den`,
with the two ends if `closed`. -/
structure Interval where
  lower : Nat
  value : Nat
  upper : Nat
  den : Nat
  closed : Bool

/-- Half a unit in the last place to either side, a quarter below a power of two whose lower
neighbour lies half as far; the ends belong to it when the significand is even. -/
def Interval.around (m : Nat) (q : Int) : Interval :=
  let below := if m = 0x10000000000000 ∧ -1074 < q then 1 else 2
  { lower := (4 * m - below) <<< (q - 2).toNat
    value := (4 * m) <<< (q - 2).toNat
    upper := (4 * m + 2) <<< (q - 2).toNat
    den := 1 <<< (2 - q).toNat
    closed := m % 2 == 0 }

/-- The same interval counted in units of `10 ^ k`. -/
def Interval.inUnits (i : Interval) (k : Int) : Interval :=
  let down := Nat.pow 10 (-k).toNat
  { i with
    lower := i.lower * down
    value := i.value * down
    upper := i.upper * down
    den := i.den * Nat.pow 10 k.toNat }

def Interval.contains (i : Interval) (d : Nat) : Bool :=
  if i.closed then decide (i.lower ≤ d * i.den ∧ d * i.den ≤ i.upper)
  else decide (i.lower < d * i.den ∧ d * i.den < i.upper)

/-- The whole number in the interval that is nearest to its value, if one of the two neighbours of
the value lies in it; a tie goes to the even one. -/
def Interval.nearest? (i : Interval) : Option Nat :=
  let d := i.value / i.den
  match i.contains d, i.contains (d + 1) with
  | true, true =>
    let rest := 2 * (i.value % i.den)
    some (if rest < i.den then d else if i.den < rest then d + 1 else d + d % 2)
  | true, false => some d
  | false, true => some (d + 1)
  | false, false => none

def decimalLength (n : Nat) : Nat := (Nat.toDigits 10 n).length

/-- The exponent of the first decimal digit of a positive quotient. -/
def leadingExponent (num den : Nat) : Int :=
  if den ≤ num then (decimalLength (num / den) : Int) - 1
  else -(decimalLength ((den - 1) / num) : Int)

/-- Tries grids with more and more digits, `count` of them at most; `k` is the exponent of the last
digit. Seventeen digits always suffice for a double. -/
def search (i : Interval) (k : Int) : (count : Nat) → Nat × Int
  | 0 => (i.value / i.den, k)
  | count + 1 =>
    match (i.inUnits k).nearest? with
    | some d => (d, k)
    | none => search i (k - 1) count

/-- Drops the zeros at the end of a digit sequence. -/
def trimZeros (digits : List Char) : List Char :=
  (digits.reverse.dropWhile (· == '0')).reverse

/-- The digits of a positive finite double and the exponent of the first of them. -/
def digits (x : Binary64) : List Char × Int :=
  let i := Interval.around x.significand x.scale
  let (d, k) := search i (leadingExponent i.value i.den) 17
  let written := Nat.toDigits 10 d
  (trimZeros written, k + (written.length : Int) - 1)

/-- Places the point after the digit of exponent zero, padding with zeros. -/
def positional (ds : List Char) (e : Int) : List Char :=
  if e < 0 then '0' :: '.' :: List.replicate ((-e).toNat - 1) '0' ++ ds
  else
    let whole := e.toNat + 1
    let fraction := ds.drop whole
    (ds.take whole ++ List.replicate (whole - ds.length) '0') ++
      '.' :: (if fraction.isEmpty then ['0'] else fraction)

def scientific (ds : List Char) (e : Int) : List Char :=
  let point := match ds with
    | [] => ['0']
    | [d] => [d]
    | d :: rest => d :: '.' :: rest
  point ++ 'e' :: (if e < 0 then '-' else '+') :: Nat.toDigits 10 e.natAbs

def layout (ds : List Char) (e : Int) : List Char :=
  if -5 ≤ e ∧ e ≤ 15 then positional ds e else scientific ds e

/-- The text of a finite double. -/
def text (x : Binary64) : List Char :=
  let magnitude :=
    if x.isZero then ['0', '.', '0']
    else
      let (ds, e) := digits x
      layout ds e
  if x.negative then '-' :: magnitude else magnitude

end QueryTree.Shortest

import QueryTree.Document
import QueryTree.Document.Scan
import QueryTree.Number.Decimal

/-!
# Numerals

A numeral is a sign, whole digits without a leading zero, and an optional fraction and exponent.
Without the last two it is a whole number if it fits 64 bits, signed or unsigned; any other numeral
is a double. Its digits count as far as they fit 64 bits.
-/

namespace QueryTree.Document.Numeral

open Scan

def digitValue (c : Char) : Nat := c.toNat - '0'.toNat

/-- Appends digits while the number fits 64 bits, and gives the digits not taken. -/
def gather (n : Nat) : List Char → Nat × List Char
  | [] => (n, [])
  | d :: rest =>
    let m := 10 * n + digitValue d
    if m < 0x10000000000000000 then gather m rest else (n, d :: rest)

/-- The number `digits · 10 ^ exponent`. -/
structure Scaled where
  digits : Nat
  exponent : Int

def Scaled.ofWhole (ds : List Char) : Scaled :=
  let (n, left) := gather 0 ds
  ⟨n, left.length⟩

def Scaled.withFraction (x : Scaled) (ds : List Char) : Scaled :=
  let (n, left) := gather x.digits ds
  ⟨n, x.exponent - (ds.length - left.length : Nat)⟩

def Scaled.toBinary64 (x : Scaled) : Binary64 := .ofScientific x.digits x.exponent

/-- The whole digits, which start with zero only if that is all of them. -/
def whole : Scan (List Char)
  | [] => halt .endInValue []
  | c :: rest =>
    if !c.isDigit then haltAfter .invalidNumber (c :: rest)
    else if c ≠ '0' then takeWhile Char.isDigit (c :: rest)
    else if rest.head?.any Char.isDigit then haltAt .invalidNumber rest
    else .ok ([c], rest)

/-- The digits after a point, of which there is at least one. -/
def fraction (x : Scaled) : Scan Scaled := do
  match ← takeWhile Char.isDigit with
  | [] =>
    match ← peek? with
    | none => haltAt .endInValue
    | some _ => haltAt .invalidNumber
  | ds => return x.withFraction ds

/-- The largest exponent that may be written. -/
def greatestExponent : Nat := 0x7fffffff

/-- The value of exponent digits, or the digits after the one at which it grows too large. -/
def exponentValue (n : Nat) : List Char → Except (List Char) Nat
  | [] => .ok n
  | d :: rest =>
    let m := 10 * n + digitValue d
    if m ≤ greatestExponent then exponentValue m rest else .error rest

/-- The double after an exponent mark. An exponent that is too large is refused at the digit where
that shows, unless the number is zero all the same. -/
def exponent (x : Scaled) : Scan Binary64 := do
  let sign ← take? (fun c => c == '+' || c == '-')
  let down := sign == some '-'
  match ← takeWhile Char.isDigit with
  | [] =>
    match ← peek? with
    | none => halt .endInValue
    | some _ => haltAfter .invalidNumber
  | ds =>
    match exponentValue 0 ds with
    | .ok e =>
      let shift : Int := if down then -e else e
      return Scaled.toBinary64 { x with exponent := x.exponent + shift }
    | .error left =>
      if down || x.digits == 0 then return .ofMagnitude false 0
      else fun rest => halt .outOfRange (left ++ rest)

/-- The document for a double, which has to be finite. -/
def ofFinite (negative : Bool) (x : Binary64) : Scan Document :=
  if x.isFinite then return .float (if negative then x.negate else x) else halt .outOfRange

/-- The document for whole digits; zero with a sign is a double. -/
def ofWhole (negative : Bool) (x : Scaled) : Scan Document :=
  if x.exponent ≠ 0 then ofFinite negative x.toBinary64
  else if !negative then return .integer x.digits
  else if x.digits = 0 ∨ 0x8000000000000000 < x.digits then ofFinite true x.toBinary64
  else return .integer (-x.digits)

/-- An exponent if its mark is in front, or else the number in `otherwise`. -/
def withExponent (negative : Bool) (x : Scaled) (otherwise : Scan Document) : Scan Document := do
  match ← take? (fun c => c == 'e' || c == 'E') with
  | some _ => ofFinite negative (← exponent x)
  | none => otherwise

/-- A numeral after its sign. -/
def read (negative : Bool) : Scan Document := do
  let x := Scaled.ofWhole (← whole)
  match ← take? (· == '.') with
  | some _ =>
    let x ← fraction x
    withExponent negative x (ofFinite negative x.toBinary64)
  | none => withExponent negative x (ofWhole negative x)

end QueryTree.Document.Numeral

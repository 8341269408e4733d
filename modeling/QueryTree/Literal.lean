import QueryTree.Number.Decimal
import QueryTree.Document

/-!
# Literals

The scalars of a query. Whole numbers have 64 bits; one that does not fit is carried as the nearest
double. Bytes are a literal of their own, apart from lists of small numbers.
-/

namespace QueryTree

inductive Literal where
  | null
  | bool (value : Bool)
  | integer (value : Int64)
  | float (value : Binary64)
  | string (value : String)
  | bytes (data : List UInt8)
deriving DecidableEq, Inhabited

namespace Literal

def typeName : Literal → String
  | .null => "null"
  | .bool _ => "boolean"
  | .integer _ => "integer"
  | .float _ => "float"
  | .string _ => "string"
  | .bytes _ => "bytes"

def isNull : Literal → Bool
  | .null => true
  | _ => false

def string? : Literal → Option String
  | .string s => some s
  | _ => none

/-- Equality of what literals stand for: floats are compared as numbers, and an integer is never
equal to a float. -/
def same : Literal → Literal → Bool
  | .null, .null => true
  | .bool a, .bool b => a == b
  | .integer a, .integer b => a == b
  | .float a, .float b => a.numericallyEqual b
  | .string a, .string b => a == b
  | .bytes a, .bytes b => a == b
  | _, _ => false

/-- The whole numbers that fit 64 bits with a sign. -/
def InRange (n : Int) : Prop := -0x8000000000000000 ≤ n ∧ n < 0x8000000000000000

instance (n : Int) : Decidable (InRange n) := inferInstanceAs (Decidable (_ ∧ _))

/-- A whole number: an integer if it is in range, the nearest double otherwise. -/
def ofInt (n : Int) : Literal :=
  if InRange n then .integer (Int64.ofInt n) else .float (Decimal.nearest ⟨n, 0⟩)

/-- A decimal: an integer if it is whole and in range, the nearest double otherwise. -/
def ofDecimal (d : Decimal) : Literal :=
  match d.whole? with
  | some n => if InRange n then .integer (Int64.ofInt n) else .float d.nearest
  | none => .float d.nearest

end Literal

end QueryTree

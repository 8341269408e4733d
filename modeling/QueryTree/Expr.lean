import QueryTree.Literal

/-!
# Expressions

The nodes of a query tree. An object literal keeps its names sorted. An operation carries its
operand under its own tag, followed by named fields. A binding is one entry of a let list.
-/

namespace QueryTree

inductive Expr where
  | literal (value : Literal)
  | array (items : List Expr)
  | object (fields : List (String × Expr))
  | binding (name : String) (value : Expr)
  | operation (tag : String) (operand : Expr) (fields : List (String × Expr))
deriving Inhabited

namespace Expr

inductive Kind where
  | literal
  | array
  | object
  | binding
  | operation
deriving DecidableEq

def kind : Expr → Kind
  | .literal _ => .literal
  | .array _ => .array
  | .object _ => .object
  | .binding .. => .binding
  | .operation .. => .operation

def null : Expr := .literal .null

def string (s : String) : Expr := .literal (.string s)

def tag? : Expr → Option String
  | .operation tag .. => some tag
  | _ => none

/-- All fields of an operation in wire order, its tag first. -/
def allFields : Expr → List (String × Expr)
  | .operation tag operand fields => (tag, operand) :: fields
  | _ => []

def fieldNames (e : Expr) : List String := e.allFields.map Prod.fst

def field? (name : String) (e : Expr) : Option Expr := e.allFields.lookup name

def literal? : Expr → Option Literal
  | .literal value => some value
  | _ => none

def elements? : Expr → Option (List Expr)
  | .array items => some items
  | _ => none

def objectFields? : Expr → Option (List (String × Expr))
  | .object fields => some fields
  | _ => none

/-- The text of a string literal. -/
def string? (e : Expr) : Option String := e.literal? >>= Literal.string?

/-- One step from a node to a node below it. -/
inductive Step where
  | field (name : String)
  | element (index : Nat)
  | key (name : String)
deriving DecidableEq

def step? : Step → Expr → Option Expr
  | .field name, e => e.field? name
  | .element index, e => e.elements? >>= (·[index]?)
  | .key name, e => e.objectFields? >>= (·.lookup name)

def follow? : List Step → Expr → Option Expr
  | [], e => some e
  | step :: path, e => e.step? step >>= follow? path

/-- The nodes along a path from the first one on; a step that finds nothing ends them. -/
def trail : List Step → Expr → List (Option Expr)
  | [], e => [some e]
  | step :: path, e =>
    some e :: match e.step? step with
      | some next => trail path next
      | none => [none]

@[simp] theorem follow?_nil (e : Expr) : e.follow? [] = some e := rfl

theorem follow?_cons (step : Step) (path : List Step) (e : Expr) :
    e.follow? (step :: path) = e.step? step >>= follow? path := rfl

theorem follow?_append (p q : List Step) (e : Expr) :
    e.follow? (p ++ q) = e.follow? p >>= follow? q := by
  induction p generalizing e with
  | nil => rfl
  | cons step p ih =>
    simp only [List.cons_append, follow?_cons]
    cases e.step? step with
    | none => rfl
    | some next => exact ih next

theorem getLast?_trail (path : List Step) (e : Expr) :
    (e.trail path).getLast? = some (e.follow? path) := by
  induction path generalizing e with
  | nil => rfl
  | cons step path ih =>
    simp only [trail, follow?_cons]
    cases e.step? step with
    | none => rfl
    | some next =>
      have h := ih next
      cases path <;> simp_all [trail]

mutual

/-- Equality of trees, node by node, with literals compared by what they stand for. -/
def same : Expr → Expr → Bool
  | .literal a, .literal b => a.same b
  | .array as, .array bs => sameItems as bs
  | .object as, .object bs => sameFields as bs
  | .binding m a, .binding n b => m == n && same a b
  | .operation s a as, .operation t b bs => s == t && same a b && sameFields as bs
  | _, _ => false

def sameItems : List Expr → List Expr → Bool
  | [], [] => true
  | a :: as, b :: bs => same a b && sameItems as bs
  | _, _ => false

def sameFields : List (String × Expr) → List (String × Expr) → Bool
  | [], [] => true
  | (m, a) :: as, (n, b) :: bs => m == n && same a b && sameFields as bs
  | _, _ => false

end

end Expr

end QueryTree

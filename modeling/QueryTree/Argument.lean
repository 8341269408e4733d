import QueryTree.Build
import QueryTree.Expr

/-!
# Arguments

What a caller may hand to a builder: data, nodes that are already built, host functions, and
failures of builders called before. A host function takes variable nodes, runs as a build of its
own, and gives an argument.
-/

namespace QueryTree

inductive Argument where
  | literal (value : Literal)
  | array (items : List Argument)
  | object (fields : List (String × Argument))
  | node (expr : Expr)
  | function (arity : Nat) (body : List Expr → Nat → EStateM.Result Stop Nat Argument)
  | failed (error : BuildError)

namespace Argument

instance : Inhabited Argument := ⟨.literal .null⟩

def null : Argument := .literal .null

def typeName : Argument → String
  | .literal value => value.typeName
  | .array _ => "array"
  | .object _ => "object"
  | .node _ => "expression"
  | .function .. => "function"
  | .failed _ => "failed expression"

def arity? : Argument → Option Nat
  | .function arity _ => some arity
  | _ => none

def literal? : Argument → Option Literal
  | .literal value => some value
  | _ => none

mutual

/-- A document as data: its objects become keyed containers. -/
def ofDocument : Document → Argument
  | .null => .literal .null
  | .bool b => .literal (.bool b)
  | .integer n => .literal (.ofInt n)
  | .float x => .literal (.float x)
  | .string s => .literal (.string s)
  | .array items => .array (ofDocuments items)
  | .object fields => .object (ofFields fields)

def ofDocuments : List Document → List Argument
  | [] => []
  | d :: rest => ofDocument d :: ofDocuments rest

def ofFields : List (String × Document) → List (String × Argument)
  | [] => []
  | (name, d) :: rest => (name, ofDocument d) :: ofFields rest

end

@[simp] theorem ofDocuments_eq_map (items : List Document) :
    ofDocuments items = items.map ofDocument := by
  induction items with
  | nil => rfl
  | cons d rest ih => simp [ofDocuments, ih]

@[simp] theorem ofFields_eq_map (fields : List (String × Document)) :
    ofFields fields = fields.map (fun p => (p.1, ofDocument p.2)) := by
  induction fields with
  | nil => rfl
  | cons field rest ih =>
    obtain ⟨name, d⟩ := field
    simp [ofFields, ih]

end Argument

end QueryTree

import QueryTree.Catalog
import QueryTree.Operands

/-!
# Builders

A builder is a catalog entry with a recipe: a tag and a form. It normalizes its operands in the
order of the wire fields, except that the arguments of a call come before its function, and puts the
nodes under its tag. The first operand that fails decides the error.
-/

namespace QueryTree

structure Builder where
  entry : Entry
  tag : String
  form : Form
  listed : entry ∈ Catalog.entries
  recipe : entry.recipe? = some ⟨tag, form⟩

/-- One place in the list of operands that a caller gives: a field, the items of a list, or named
entries. -/
inductive Parameter where
  | field (name : String) (optional : Bool)
  | items
  | entries
deriving DecidableEq

def Position.parameter (name : String) (optional : Bool) : Position → Parameter
  | .items _ => .items
  | _ => .field name optional

namespace Form

/-- The operands of a form in the order in which callers give them. -/
def parameters (tag : String) : Form → List Parameter
  | .constant => []
  | .listing => [.field tag true]
  | .operation operand fields =>
    operand.parameter tag false ::
      fields.map fun slot => slot.position.parameter slot.name slot.optional
  | .traversal => [.field "collection" false, .field tag false]
  | .call => [.field tag false, .items]
  | .letIn => [.entries, .field "in" false]
  | .lambda => [.field tag false, .field "expr" false]
  | .object => [.entries]

/-- A node with an operand under its tag and further fields. -/
def buildOperation (numbering : Numbering) (tag : String) (operands : Operands)
    (operand : Position) (fields : List Slot) : Build Expr := do
  let e ← operands.normalizeAt numbering tag tag operand
  return .operation tag e (← operands.normalizeSlots numbering tag fields)

def buildCall (numbering : Numbering) (tag : String) (operands : Operands) : Build Expr := do
  let arguments ← operands.normalizeAt numbering tag tag (.items 0)
  let function ← operands.normalizeAt numbering tag tag .value
  return .operation tag function [("arguments", arguments)]

def buildLet (numbering : Numbering) (tag : String) (operands : Operands) : Build Expr := do
  let values ← Build.ofExcept (Argument.normalizeFields tag operands.entries)
  let body ← Argument.normalizeBody numbering tag (values.map Prod.fst) (operands.field "in")
  return .operation tag (.array (values.map fun p => .binding p.1 p.2)) [("in", body)]

def buildLambda (numbering : Numbering) (tag : String) (operands : Operands) : Build Expr := do
  let (parameters, names) ← Build.ofExcept ((operands.field tag).bindingNames tag)
  let body ← Argument.normalizeBody numbering tag names (operands.field "expr")
  return lambdaNode parameters body

/-- The node that a form makes of operands under a tag. -/
def build (numbering : Numbering) (tag : String) (operands : Operands) : Form → Build Expr
  | .constant => return .operation tag .null []
  | .listing => buildOperation numbering tag operands .value []
  | .operation operand fields => buildOperation numbering tag operands operand fields
  | .traversal => buildOperation numbering tag operands .lambda [.required "collection"]
  | .call => buildCall numbering tag operands
  | .letIn => buildLet numbering tag operands
  | .lambda => buildLambda numbering tag operands
  | .object => Build.ofExcept (Argument.normalize tag (.object operands.entries))

end Form

namespace Builder

theorem formed (b : Builder) : b.entry.form? = some b.form := congrArg (Option.map Recipe.form) b.recipe

def parameters (b : Builder) : List Parameter := b.form.parameters b.tag

def build (b : Builder) (numbering : Numbering) (operands : Operands) : Build Expr :=
  b.form.build numbering b.tag operands

def ofEntry? (e : { e // e ∈ Catalog.entries }) : Option Builder :=
  match h : e.val.recipe? with
  | some ⟨tag, form⟩ => some ⟨e.val, tag, form, e.property, h⟩
  | none => none

/-- The builder of a given name. -/
def find? (name : String) : Option Builder :=
  (Catalog.entries.attach.find? (fun e => e.val.name == name)) >>= ofEntry?

end Builder

/-- Builders that take text or bytes as they are and never fail. -/
inductive Leaf where
  | reference (path : String)
  | timestamp (iso : String)
  | date (iso : String)
  | variable (name : String)
  | bytes (data : List UInt8)
deriving DecidableEq

def Leaf.node : Leaf → Expr
  | .reference path => .operation "@ref" (.string path) []
  | .timestamp iso => .operation "@ts" (.string iso) []
  | .date iso => .operation "@date" (.string iso) []
  | .variable name => variableNode name
  | .bytes data => .literal (.bytes data)

end QueryTree

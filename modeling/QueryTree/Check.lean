import QueryTree.Catalog
import QueryTree.Document

/-!
# Checking wire documents

The check walks a document and reports the nodes that the engine would not recognize. Every object
has to be an operation, a literal with a marker of its own, or the payload of an object literal or
of a let. A walk adds to the report made so far; a path tells where an issue is, `$` being the
whole document.
-/

namespace QueryTree

structure Issue where
  path : String
  message : String
deriving DecidableEq

structure Report where
  operations : Nat
  issues : List Issue
deriving DecidableEq

namespace Report

def empty : Report := ⟨0, []⟩

def isOk (r : Report) : Bool := r.issues.isEmpty

def add (r : Report) (path message : String) : Report :=
  { r with issues := r.issues ++ [⟨path, message⟩] }

def countOperation (r : Report) : Report := { r with operations := r.operations + 1 }

def toDocument (r : Report) : Document :=
  .object [("operations", .integer r.operations),
    ("issues", .array (r.issues.map fun issue =>
      .object [("path", .string issue.path), ("message", .string issue.message)]))]

end Report

namespace Check

/-- Literals whose payload is no expression. -/
def literalTags : List String := ["@ref", "@ts", "@date", "@bytes"]

/-- Markers of an object literal. -/
def objectTags : List String := ["object", "@obj"]

def unrecognized (keys : List String) : String :=
  "unrecognized node with keys [" ++ ", ".intercalate keys ++
    "]; wrap data in an object literal"

def payloadNotObject : String := "object literal payload must be an object"

def bindingNotObject : String := "let binding must be an object of one name"

def bindingsNotList : String := "let bindings must be an array or an object"

def noOperands (tag : String) : String := tag ++ " needs at least one operand"

def fieldPath (path name : String) : String := path ++ "." ++ name

def itemPath (path : String) (index : Nat) : String := path ++ "[" ++ toString index ++ "]"

/-- A tag that needs operands and has an empty list of them. -/
def lacksOperands (tag : String) : Document → Bool
  | .array [] => (Catalog.lookup tag).any Entry.isVariadic
  | _ => false

/-- Reports the known tags of an operation that lack operands. -/
def checkOperands (path : String) : List (String × Document) → Report → Report
  | [], r => r
  | (name, value) :: rest, r =>
    checkOperands path rest <|
      if lacksOperands name value then r.add (fieldPath path name) (noOperands name) else r

/-- What an object is, to judge by its names. -/
inductive Shape where
  | objectLiteral
  | literal
  | operation
  | unrecognized
deriving DecidableEq

/-- A marker counts only where it is the single name. -/
def Shape.ofNames (names : List String) : Shape :=
  if names.any Catalog.isKnownTag then
    match names with
    | [name] =>
      if objectTags.contains name then .objectLiteral
      else if literalTags.contains name then .literal
      else .operation
    | _ => .operation
  else .unrecognized

mutual

def walk : Document → String → Report → Report
  | .array items, path, r => walkItems items 0 path r
  | .object fields, path, r =>
    match Shape.ofNames (fields.map Prod.fst) with
    | .objectLiteral => walkPayloads fields path r
    | .literal => r
    | .operation => walkEntries fields path (checkOperands path fields r.countOperation)
    | .unrecognized => r.add path (unrecognized (fields.map Prod.fst))
  | _, _, r => r

def walkItems : List Document → Nat → String → Report → Report
  | [], _, _, r => r
  | item :: rest, index, path, r =>
    walkItems rest (index + 1) path (walk item (itemPath path index) r)

/-- The entries of an operation. Names declared by a lambda are no expressions. -/
def walkEntries : List (String × Document) → String → Report → Report
  | [], _, r => r
  | (name, value) :: rest, path, r =>
    walkEntries rest path <|
      if name = "let" then walkBindings value (fieldPath path name) r
      else if name = "lambda" ∧ !value.isObject then r
      else walk value (fieldPath path name) r

/-- The payload of an object literal is an object of values. -/
def walkPayload : Document → String → Report → Report
  | .object fields, path, r => walkValues fields path r
  | _, path, r => r.add path payloadNotObject

/-- The payload under the marker of an object literal. -/
def walkPayloads : List (String × Document) → String → Report → Report
  | [], _, r => r
  | (name, payload) :: rest, path, r =>
    walkPayloads rest path (walkPayload payload (fieldPath path name) r)

def walkValues : List (String × Document) → String → Report → Report
  | [], _, r => r
  | (name, value) :: rest, path, r =>
    walkValues rest path (walk value (fieldPath path name) r)

/-- The bindings of a let: a list of objects, or one object. -/
def walkBindings : Document → String → Report → Report
  | .array bindings, path, r => walkBindingItems bindings 0 path r
  | .object fields, path, r => walkValues fields path r
  | _, path, r => r.add path bindingsNotList

def walkBindingItems : List Document → Nat → String → Report → Report
  | [], _, _, r => r
  | .object fields :: rest, index, path, r =>
    walkBindingItems rest (index + 1) path (walkValues fields (itemPath path index) r)
  | _ :: rest, index, path, r =>
    walkBindingItems rest (index + 1) path (r.add (itemPath path index) bindingNotObject)

end

def document (d : Document) : Report := walk d "$" .empty

end Check

end QueryTree

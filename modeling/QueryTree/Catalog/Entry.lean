import QueryTree.Catalog.Category

/-!
# Catalog entries

What is known of one builder: its name, its wire tag, its signature for readers, whether its tag
needs operands, and what it makes of its operands. The check of a wire document knows the first
columns only. The form fixes the fields of the nodes that are built and their order.
-/

namespace QueryTree

/-- How an operand is taken: as a value, as a value or lambda, or as a list of values of which
there are at least so many. -/
inductive Position where
  | value
  | lambda
  | items (least : Nat)
deriving DecidableEq

/-- A named field of a node. An optional one is left out when nothing is given for it; a list counts
as given when it is not empty. -/
structure Slot where
  name : String
  position : Position
  optional : Bool
deriving DecidableEq

namespace Slot

def required (name : String) : Slot := ⟨name, .value, false⟩

def optionalValue (name : String) : Slot := ⟨name, .value, true⟩

def lambda (name : String) : Slot := ⟨name, .lambda, false⟩

def optionalLambda (name : String) : Slot := ⟨name, .lambda, true⟩

def optionalItems (name : String) : Slot := ⟨name, .items 1, true⟩

end Slot

/-- The forms of builders:
- `constant` has no operand, and its tag holds null;
- `listing` holds its operand under the tag, or null;
- `operation` has an operand under its tag and further fields;
- `traversal` holds a lambda under its tag, and then the collection, which callers give first;
- `call` holds a function under its tag and then its arguments, which are taken first;
- `letIn` holds named bindings under its tag, and then the body in their scope;
- `lambda` holds declared names under its tag, and then the body under them;
- `object` is the object literal. -/
inductive Form where
  | constant
  | listing
  | operation (operand : Position) (fields : List Slot)
  | traversal
  | call
  | letIn
  | lambda
  | object
deriving DecidableEq

namespace Form

def unary : Form := .operation .value []

def variadic : Form := .operation (.items 1) []

end Form

/-- What a builder makes of its operands: nodes with its tag, in its form. -/
structure Recipe where
  tag : String
  form : Form
deriving DecidableEq

/-- `isVariadic` says that the tag holds a list of operands that must not be empty. Without a recipe
an entry stands for a leaf, which takes text or bytes as they are. -/
structure Entry where
  category : Category
  name : String
  tag : String
  signature : String
  isVariadic : Bool
  recipe? : Option Recipe
deriving DecidableEq

def Entry.form? (e : Entry) : Option Form := e.recipe?.map Recipe.form

end QueryTree

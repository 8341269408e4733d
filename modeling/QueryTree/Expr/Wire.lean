import QueryTree.Expr
import QueryTree.Document.Writer
import QueryTree.Text.Base64

/-!
# Wire form

A literal is a scalar, bytes stand as base64 under `@bytes`, an object literal stands under
`object`, and an operation is an object whose first name is its tag. The wire form exists as a
document and, written without one, as text.
-/

namespace QueryTree

def bytesTag : String := "@bytes"

def objectTag : String := "object"

/-- A double that is not finite has no wire form but `null`. -/
def Literal.toDocument : Literal → Document
  | .null => .null
  | .bool b => .bool b
  | .integer n => .integer n.toInt
  | .float x => if x.isFinite then .float x else .null
  | .string s => .string s
  | .bytes data => .object [(bytesTag, .string (String.ofList (Base64.encode data)))]

def Literal.write (layout : Layout) (depth : Nat) : Literal → List Char
  | .null => Document.nullText
  | .bool b => Document.boolText b
  | .integer n => Document.integerText n.toInt
  | .float x => Document.floatText x
  | .string s => Quoted.quote s.toList
  | .bytes data =>
    layout.enclose depth '{' '}' [layout.member bytesTag (Quoted.quote (Base64.encode data))]

namespace Expr

mutual

/-- The wire document. Names that repeat in a node would collapse into one. -/
def toDocument : Expr → Document
  | .literal value => value.toDocument
  | .array items => .array (toDocuments items)
  | .object fields => .object [(objectTag, Document.ofFields (fieldDocuments fields))]
  | .binding name value => .object [(name, toDocument value)]
  | .operation tag operand fields =>
    Document.ofFields ((tag, toDocument operand) :: fieldDocuments fields)

def toDocuments : List Expr → List Document
  | [] => []
  | e :: rest => toDocument e :: toDocuments rest

def fieldDocuments : List (String × Expr) → List (String × Document)
  | [] => []
  | (name, e) :: rest => (name, toDocument e) :: fieldDocuments rest

end

mutual

/-- The wire text of a node whose brackets stand at a nesting level. -/
def write (layout : Layout) (depth : Nat) : Expr → List Char
  | .literal value => value.write layout depth
  | .array items => layout.enclose depth '[' ']' (writeItems layout (depth + 1) items)
  | .object fields =>
    layout.enclose depth '{' '}'
      [layout.member objectTag
        (layout.enclose (depth + 1) '{' '}' (writeFields layout (depth + 2) fields))]
  | .binding name value =>
    layout.enclose depth '{' '}' [layout.member name (write layout (depth + 1) value)]
  | .operation tag operand fields =>
    layout.enclose depth '{' '}'
      (layout.member tag (write layout (depth + 1) operand) ::
        writeFields layout (depth + 1) fields)

def writeItems (layout : Layout) (depth : Nat) : List Expr → List (List Char)
  | [] => []
  | e :: rest => write layout depth e :: writeItems layout depth rest

def writeFields (layout : Layout) (depth : Nat) : List (String × Expr) → List (List Char)
  | [] => []
  | (name, e) :: rest => layout.member name (write layout depth e) :: writeFields layout depth rest

end

def text (layout : Layout) (e : Expr) : String := String.ofList (e.write layout 0)

@[simp] theorem toDocuments_eq_map (items : List Expr) :
    toDocuments items = items.map toDocument := by
  induction items with
  | nil => rfl
  | cons e rest ih => simp [toDocuments, ih]

@[simp] theorem fieldDocuments_eq_map (fields : List (String × Expr)) :
    fieldDocuments fields = fields.map (fun p => (p.1, p.2.toDocument)) := by
  induction fields with
  | nil => rfl
  | cons field rest ih =>
    obtain ⟨name, e⟩ := field
    simp [fieldDocuments, ih]

theorem writeItems_eq_map (layout : Layout) (depth : Nat) (items : List Expr) :
    writeItems layout depth items = items.map (write layout depth) := by
  induction items with
  | nil => rfl
  | cons e rest ih => simp [writeItems, ih]

theorem writeFields_eq_map (layout : Layout) (depth : Nat) (fields : List (String × Expr)) :
    writeFields layout depth fields =
      fields.map (fun p => layout.member p.1 (write layout depth p.2)) := by
  induction fields with
  | nil => rfl
  | cons field rest ih =>
    obtain ⟨name, e⟩ := field
    simp [writeFields, ih]

end Expr

end QueryTree

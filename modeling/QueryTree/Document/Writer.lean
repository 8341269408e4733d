import QueryTree.Document
import QueryTree.Document.Layout
import QueryTree.Number.Shortest

/-!
# Writing documents

Whole numbers are written in decimal, finite doubles in their shortest text and other doubles as
`null`. Strings are quoted, and brackets follow the layout.
-/

namespace QueryTree.Document

def integerText (n : Int) : List Char :=
  if n < 0 then '-' :: Nat.toDigits 10 n.natAbs else Nat.toDigits 10 n.natAbs

def nullText : List Char := ['n', 'u', 'l', 'l']

def boolText : Bool → List Char
  | true => ['t', 'r', 'u', 'e']
  | false => ['f', 'a', 'l', 's', 'e']

def floatText (x : Binary64) : List Char :=
  if x.isFinite then Shortest.text x else nullText

mutual

/-- The text of a document whose brackets stand at a nesting level. -/
def write (layout : Layout) (depth : Nat) : Document → List Char
  | .null => nullText
  | .bool b => boolText b
  | .integer n => integerText n
  | .float x => floatText x
  | .string s => Quoted.quote s.toList
  | .array items => layout.enclose depth '[' ']' (writeItems layout (depth + 1) items)
  | .object fields => layout.enclose depth '{' '}' (writeFields layout (depth + 1) fields)

def writeItems (layout : Layout) (depth : Nat) : List Document → List (List Char)
  | [] => []
  | item :: rest => write layout depth item :: writeItems layout depth rest

def writeFields (layout : Layout) (depth : Nat) : List (String × Document) → List (List Char)
  | [] => []
  | (name, value) :: rest =>
    layout.member name (write layout depth value) :: writeFields layout depth rest

end

theorem writeItems_eq_map (layout : Layout) (depth : Nat) (items : List Document) :
    writeItems layout depth items = items.map (write layout depth) := by
  induction items with
  | nil => rfl
  | cons item rest ih => simp [writeItems, ih]

theorem writeFields_eq_map (layout : Layout) (depth : Nat) (fields : List (String × Document)) :
    writeFields layout depth fields =
      fields.map (fun p => layout.member p.1 (write layout depth p.2)) := by
  induction fields with
  | nil => rfl
  | cons field rest ih =>
    obtain ⟨name, value⟩ := field
    simp [writeFields, ih]

def text (layout : Layout) (d : Document) : String := String.ofList (d.write layout 0)

end QueryTree.Document

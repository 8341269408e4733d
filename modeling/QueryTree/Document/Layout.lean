import QueryTree.Text.Quoted

/-!
# Layouts of nested text

The compact layout has no blanks. The indented one gives every entry a line of its own, two blanks
per level, and a blank after each colon. Empty brackets stay together in both.
-/

namespace QueryTree

inductive Layout where
  | compact
  | indented
deriving DecidableEq

namespace Layout

/-- What separates two entries at a nesting level besides the comma. -/
def lineBreak (layout : Layout) (depth : Nat) : List Char :=
  match layout with
  | .compact => []
  | .indented => '\n' :: List.replicate (2 * depth) ' '

/-- Brackets at a nesting level around entries one level deeper. -/
def enclose (layout : Layout) (depth : Nat) (opening closing : Char) :
    List (List Char) → List Char
  | [] => [opening, closing]
  | first :: rest =>
    opening :: layout.lineBreak (depth + 1) ++ first ++
      rest.flatMap (fun entry => ',' :: layout.lineBreak (depth + 1) ++ entry) ++
      layout.lineBreak depth ++ [closing]

def member (layout : Layout) (name : String) (value : List Char) : List Char :=
  Quoted.quote name.toList ++ ':' ::
    match layout with
    | .compact => value
    | .indented => ' ' :: value

end Layout

end QueryTree

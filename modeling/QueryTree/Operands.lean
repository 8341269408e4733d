import QueryTree.Argument.Normalize
import QueryTree.Catalog.Entry

/-!
# Operands

The operands of one builder call, each with a label: the field it fills, one more item of a list, or
a named entry. They stand in the order in which they were given. Of several operands for one field
the last counts.
-/

namespace QueryTree

inductive Label where
  | field (name : String)
  | item
  | entry (name : String)
deriving DecidableEq

abbrev Operands := List (Label × Argument)

namespace Operands

def field? (operands : Operands) (name : String) : Option Argument :=
  (operands.reverse.find? (fun p => p.1 == .field name)).map Prod.snd

/-- The argument for a field that cannot be left out. -/
def field (operands : Operands) (name : String) : Argument := (operands.field? name).getD .null

def items (operands : Operands) : List Argument :=
  operands.filterMap fun
    | (.item, a) => some a
    | _ => none

def entries (operands : Operands) : List (String × Argument) :=
  operands.filterMap fun
    | (.entry name, a) => some (name, a)
    | _ => none

/-- The node for the operand in a position of the builder with the given tag. -/
def normalizeAt (operands : Operands) (numbering : Numbering) (tag name : String) :
    Position → Build Expr
  | .value => Build.ofExcept ((operands.field name).normalize tag)
  | .lambda => (operands.field name).normalizeLambda numbering tag
  | .items least => Build.ofExcept (Argument.normalizeOperands tag least operands.items)

/-- Whether there is an operand for a slot. -/
def fills (operands : Operands) (slot : Slot) : Bool :=
  match slot.position with
  | .items _ => !operands.items.isEmpty
  | _ => (operands.field? slot.name).isSome

/-- The fields for slots in their order, less the optional ones that are not given. -/
def normalizeSlots (operands : Operands) (numbering : Numbering) (tag : String) :
    List Slot → Build (List (String × Expr))
  | [] => pure []
  | slot :: rest =>
    if slot.optional && !operands.fills slot then normalizeSlots operands numbering tag rest
    else do
      let e ← operands.normalizeAt numbering tag slot.name slot.position
      return (slot.name, e) :: (← normalizeSlots operands numbering tag rest)

end Operands

end QueryTree

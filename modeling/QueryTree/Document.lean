import QueryTree.Fields
import QueryTree.Number.Binary64

/-!
# Documents

JSON values. Whole numbers and floating-point numbers stay apart, and the fields of an object keep
their order of arrival.
-/

namespace QueryTree

inductive Document where
  | null
  | bool (value : Bool)
  | integer (value : Int)
  | float (value : Binary64)
  | string (value : String)
  | array (items : List Document)
  | object (fields : List (String × Document))
deriving Inhabited

namespace Document

/-- An object from pairs in which a name may repeat: first place, last value. -/
def ofFields (pairs : List (String × Document)) : Document := .object (Fields.arrival pairs)

def isObject : Document → Bool
  | .object _ => true
  | _ => false

end Document

end QueryTree

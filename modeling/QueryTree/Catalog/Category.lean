/-!
# Categories

The groups of builders, each with a name, a one-line summary, and further names it is found under.
-/

namespace QueryTree

inductive Category where
  | basic
  | collections
  | types
  | read
  | write
  | sets
  | auth
  | strings
  | time
  | schema
  | objects
  | math
  | logic
deriving DecidableEq, Inhabited

namespace Category

def all : List Category :=
  [basic, collections, types, read, write, sets, auth, strings, time, schema, objects, math, logic]

theorem mem_all (c : Category) : c ∈ all := by cases c <;> decide

def name : Category → String
  | basic => "basic"
  | collections => "collections"
  | types => "types"
  | read => "read"
  | write => "write"
  | sets => "sets"
  | auth => "auth"
  | strings => "strings"
  | time => "time"
  | schema => "schema"
  | objects => "objects"
  | math => "math"
  | logic => "logic"

def summary : Category → String
  | basic => "References, bindings, control flow, lambdas and literals"
  | collections => "Map, filter and slice arrays, pages and sets"
  | types => "Type predicates and conversions"
  | read => "Fetch documents and paginate sets"
  | write => "Create, update and remove documents and schema"
  | sets => "Index matches and set algebra"
  | auth => "Login, logout and identity"
  | strings => "Search, transform and format strings"
  | time => "Timestamps, dates and their components"
  | schema => "References to databases, collections, indexes and more"
  | objects => "Equality, containment and path selection"
  | math => "Arithmetic, rounding, trigonometry and aggregates"
  | logic => "Chained comparisons and boolean logic"

/-- The names a category is found under besides its own. -/
def aliases : Category → List String
  | basic => ["core"]
  | collections => ["collection", "arrays"]
  | types => ["type", "conversions"]
  | read => ["reads"]
  | write => ["writes"]
  | sets => ["set"]
  | auth => ["authentication"]
  | strings => ["string"]
  | time => ["dates"]
  | schema => ["refs"]
  | objects => ["object", "paths"]
  | math => ["arithmetic"]
  | logic => ["comparison"]

/-- Looks a category up without regard to case. All names are ASCII and hold no letter that a
character outside ASCII has as its lower case, so lowering A to Z decides the same. -/
def find? (text : String) : Option Category :=
  all.find? fun c => (c.name :: c.aliases).contains text.toLower

end Category

end QueryTree

import QueryTree.Catalog

/-!
# The manual

The text shown for the whole catalog and for one category, as lines in columns of fixed width.
-/

namespace QueryTree.Manual

def padRight (width : Nat) (s : String) : String :=
  s ++ String.ofList (List.replicate (width - s.length) ' ')

def padLeft (width : Nat) (s : String) : String :=
  String.ofList (List.replicate (width - s.length) ' ') ++ s

def introduction : String :=
  "FQL BUILDER DOCUMENTATION\n\n" ++
  "Every query-language function has a builder in `fql_builder::q`. Builders\n" ++
  "normalize their arguments and return an immutable expression that\n" ++
  "serializes to the JSON wire format.\n\n" ++
  "DOCUMENTATION CATEGORIES\n\n"

def conventions : String :=
  "\nCONVENTIONS\n\n" ++
  "  name?             Optional parameter, left out of the node when None\n" ++
  "  name...           Variadic parameter, at least one value required\n" ++
  "  lambda            Expression or native function (see `func`)\n\n" ++
  "Run 'fql doc <category>' for the functions in a category.\n"

def categoryLine (c : Category) : String :=
  "  " ++ padRight 14 c.name ++ padRight 58 c.summary ++
    padLeft 3 (toString (Catalog.ofCategory c).length) ++ "\n"

def overview : String :=
  introduction ++ String.join (Category.all.map categoryLine) ++ conventions

def row (signature tag : String) : String := "  " ++ padRight 62 signature ++ tag ++ "\n"

def page (c : Category) : String :=
  c.name.toUpper ++ " - " ++ c.summary ++ "\n\n" ++ row "BUILDER" "WIRE TAG" ++
    String.join ((Catalog.ofCategory c).map fun e => row e.signature e.tag)

end QueryTree.Manual

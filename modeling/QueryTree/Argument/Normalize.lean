import QueryTree.Argument

/-!
# Normalization

How an argument becomes a node. In a value position data becomes literal, array and object nodes,
built nodes stay as they are, and a function is refused without being run. In a lambda position a
function is called once with fresh variables and becomes a lambda node; a function that it returns
becomes a lambda inside, while the variables are still bound.
-/

namespace QueryTree

/-- A reference to a variable. -/
def variableNode (name : String) : Expr := .operation "var" (.string name) []

def lambdaNode (parameters body : Expr) : Expr := .operation "lambda" parameters [("expr", body)]

/-- The name of the implicit variable with a number. -/
def implicitName (index : Nat) : String := "_implicit" ++ toString index

/-- So many names from a number on, as long as these numbers are below `2 ^ 64`. -/
def implicitNames (first count : Nat) : List String :=
  (List.range' first count).map implicitName

/-- A single name stands alone, several in an array. -/
def parameterNode : List String → Expr
  | [name] => .string name
  | names => .array (names.map Expr.string)

namespace Argument

mutual

/-- The node of an argument in a value position of the builder with the given tag. -/
def normalize (tag : String) : Argument → Except BuildError Expr
  | .literal value => .ok (.literal value)
  | .array items => do return .array (← normalizeItems tag items)
  | .object fields => do return .object (Fields.sorted (← normalizeFields tag fields))
  | .node expr => .ok expr
  | .function .. => .error (.functionNotAllowed tag)
  | .failed error => .error error

def normalizeItems (tag : String) : List Argument → Except BuildError (List Expr)
  | [] => .ok []
  | item :: rest => do return (← normalize tag item) :: (← normalizeItems tag rest)

def normalizeFields (tag : String) :
    List (String × Argument) → Except BuildError (List (String × Expr))
  | [] => .ok []
  | (name, value) :: rest => do
    return (name, ← normalize tag value) :: (← normalizeFields tag rest)

end

theorem normalizeItems_eq_mapM (tag : String) (items : List Argument) :
    normalizeItems tag items = items.mapM (normalize tag) := by
  induction items with
  | nil => rfl
  | cons item rest ih => simp [normalizeItems, ih, List.mapM_cons]

theorem normalizeFields_eq_mapM (tag : String) (fields : List (String × Argument)) :
    normalizeFields tag fields = fields.mapM (fun p => do return (p.1, ← normalize tag p.2)) := by
  induction fields with
  | nil => rfl
  | cons field rest ih =>
    obtain ⟨name, value⟩ := field
    simp [normalizeFields, ih, List.mapM_cons]

mutual

/-- The node of an argument in a position that also takes a lambda. -/
def normalizeLambda (numbering : Numbering) (tag : String) : Argument → Build Expr
  | .function 0 _ => Build.fail (.emptyLambda tag)
  | .function (n + 1) body =>
    Build.binding numbering (n + 1) fun first bound =>
      let names := implicitNames first (n + 1)
      match normalizeEnding numbering tag (body (names.map variableNode) bound) with
      | .ok e bound => .ok (lambdaNode (parameterNode names) e) bound
      | .error stop bound => .error stop bound
  | argument => Build.ofExcept (normalize tag argument)

/-- Goes on with what a host function gave. -/
def normalizeEnding (numbering : Numbering) (tag : String) :
    EStateM.Result Stop Nat Argument → Ending Expr
  | .ok argument bound => normalizeLambda numbering tag argument bound
  | .error stop bound => .error stop bound

end

/-- Runs a host function on given nodes and normalizes what it gives. -/
def enter (numbering : Numbering) (tag : String) (body : List Expr → Build Argument)
    (nodes : List Expr) : Build Expr := do
  normalizeLambda numbering tag (← body nodes)

theorem normalizeLambda_function (numbering : Numbering) (tag : String) (n : Nat)
    (body : List Expr → Build Argument) :
    normalizeLambda numbering tag (.function (n + 1) body) =
      Build.binding numbering (n + 1) fun first => do
        let names := implicitNames first (n + 1)
        return lambdaNode (parameterNode names)
          (← enter numbering tag body (names.map variableNode)) := by
  simp only [normalizeLambda]
  congr 1
  funext first bound
  simp only [enter, Build.bind_apply]
  cases body ((implicitNames first (n + 1)).map variableNode) bound with
  | ok a bound =>
    simp only [normalizeEnding]
    cases normalizeLambda numbering tag a bound <;> rfl
  | error stop bound => simp only [normalizeEnding]

/-- A name among the declared ones. -/
def declaredName (tag : String) : Argument → Except BuildError String
  | .literal (.string name) => .ok name
  | .node expr =>
    match expr.string? with
    | some name => .ok name
    | none => .error (.invalidBinding tag "expression")
  | .failed error => .error error
  | other => .error (.invalidBinding tag other.typeName)

/-- The names that a node declares. -/
def nodeNames (tag : String) (expr : Expr) : Except BuildError (List String) :=
  match expr with
  | .literal (.string name) => .ok [name]
  | .array items =>
    items.mapM fun item =>
      match item.string? with
      | some name => .ok name
      | none => .error (.invalidBinding tag "expression")
  | _ => .error (.invalidBinding tag "expression")

/-- A binding position takes a name or a list of names: its node, and the names it declares. -/
def bindingNames (tag : String) : Argument → Except BuildError (Expr × List String)
  | .literal (.string name) => .ok (.string name, [name])
  | .array items => do
    let names ← items.mapM (declaredName tag)
    return (.array (names.map Expr.string), names)
  | .node expr => do return (expr, ← nodeNames tag expr)
  | .failed error => .error error
  | other => .error (.invalidBinding tag other.typeName)

/-- A body under declared names: a function is called with their variables, of which it has to take
as many as there are names. -/
def normalizeBody (numbering : Numbering) (tag : String) (names : List String) :
    Argument → Build Expr
  | .function arity body =>
    if arity = names.length then enter numbering tag body (names.map variableNode)
    else Build.fail (.lambdaArity tag names.length arity)
  | argument => Build.ofExcept (normalize tag argument)

/-- A list of operands, of which there are at least so many. -/
def normalizeOperands (tag : String) (least : Nat) (items : List Argument) :
    Except BuildError Expr :=
  if items.length < least then .error (.arity tag least items.length)
  else normalize tag (.array items)

end Argument

end QueryTree

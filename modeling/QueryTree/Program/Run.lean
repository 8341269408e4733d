import QueryTree.Program

/-!
# Running programs

Terms are evaluated eagerly and from left to right. A builder that fails gives a failed argument,
and evaluation goes on; an exception ends it, unless a term catches it.
-/

namespace QueryTree

/-- The argument for what a builder gave. -/
def Argument.ofExcept : Except BuildError Expr → Argument
  | .ok e => .node e
  | .error error => .failed error

namespace Build

/-- A failure becomes a failed argument. -/
def captured (x : Build Expr) : Build Argument := do return .ofExcept (← x.outcome)

/-- The second build takes over when the first one ends with an exception. -/
def catching (x fallback : Build Argument) : Build Argument := fun bound =>
  match x bound with
  | .error (.thrown _) bound => fallback bound
  | ending => ending

/-- The second build takes over when the first one gives a failed argument. -/
def replacingFailure (x fallback : Build Argument) : Build Argument := do
  match ← x with
  | .failed _ => fallback
  | a => return a

end Build

namespace Program

variable (numbering : Numbering)

mutual

/-- The argument that a term gives in an environment. -/
def run (env : Env) : Program → Build Argument
  | .literal value => return .literal value
  | .document value => return .ofDocument value
  | .list items => return .array (← runItems env items)
  | .object fields => return .object (← runFields env fields)
  | .keyed fields => return .object (Fields.sorted (← runFields env fields))
  | .get name => return env.argument name
  | .spread name => return .array (env.arguments name)
  | .leaf value => return .node value.node
  | .call builder operands => do
    (builder.build numbering (← runOperands env operands)).captured
  | .function parameters body =>
    return .function parameters.length fun es => run (env.bindAll parameters es) body
  | .functionOf arity name body =>
    return .function arity fun es => run (env.bindNumbered name es) body
  | .normalize term tag => do return .ofExcept ((← run env term).normalize tag)
  | .normalizeLambda term tag => do
    ((← run env term).normalizeLambda numbering tag).captured
  | .part term path => do
    match (← run env term).normalize "part" with
    | .ok e => return ((e.follow? path).map .node).getD .null
    | .error error => return .failed error
  | .fail error => return .failed error
  | .throw message => Build.throw message
  | .attempt term fallback => (run env term).catching (run env fallback)
  | .orElse term fallback => (run env term).replacingFailure (run env fallback)

/-- The elements of a list; a spread name adds all of its nodes. -/
def runItems (env : Env) : List Program → Build (List Argument)
  | [] => return []
  | .spread name :: rest => return env.arguments name ++ (← runItems env rest)
  | term :: rest => return (← run env term) :: (← runItems env rest)

def runFields (env : Env) : List (String × Program) → Build (List (String × Argument))
  | [] => return []
  | (name, term) :: rest => return (name, ← run env term) :: (← runFields env rest)

/-- The operands of a call; a spread name adds all of its nodes. -/
def runOperands (env : Env) : List (Label × Program) → Build Operands
  | [] => return []
  | (label, .spread name) :: rest =>
    return (env.arguments name).map (label, ·) ++ (← runOperands env rest)
  | (label, term) :: rest => return (label, ← run env term) :: (← runOperands env rest)

end

/-- What one term adds to a list. -/
def runElements (env : Env) : Program → Build (List Argument)
  | .spread name => return env.arguments name
  | term => return [← run numbering env term]

theorem runElements_of_ne (env : Env) {term : Program} (h : ∀ name, term ≠ .spread name) :
    runElements numbering env term = do return [← run numbering env term] := by
  cases term with
  | spread name => exact absurd rfl (h name)
  | _ => rfl

theorem runItems_cons (env : Env) (term : Program) (rest : List Program) :
    runItems numbering env (term :: rest) = do
      return (← runElements numbering env term) ++ (← runItems numbering env rest) := by
  cases term <;> simp [runItems, runElements]

theorem runOperands_cons (env : Env) (label : Label) (term : Program)
    (rest : List (Label × Program)) :
    runOperands numbering env ((label, term) :: rest) = do
      return (← runElements numbering env term).map (label, ·) ++
        (← runOperands numbering env rest) := by
  cases term <;> simp [runOperands, runElements]

/-- The node of a term, as a build of its own. -/
def build (env : Env) (term : Program) : Build Expr := do
  Build.ofExcept ((← run numbering env term).normalize "build")

end Program

end QueryTree

import QueryTree.Builder

/-!
# Programs

The terms of a client: data, calls of builders, host functions, names of nodes built before, and the
handling of failures and exceptions. A function term gives a host function, which runs when a
builder calls it, in the environment where the term was evaluated.
-/

namespace QueryTree

/-- A `keyed` term is a container in the order of its names, of which each counts once: the last
value given for it. A container in another order, such as that of hashes, is an `object` term with
its pairs in this order. -/
inductive Program where
  | literal (value : Literal)
  | document (value : Document)
  | list (items : List Program)
  | object (fields : List (String × Program))
  | keyed (fields : List (String × Program))
  | get (name : String)
  | spread (name : String)
  | leaf (value : Leaf)
  | call (builder : Builder) (operands : List (Label × Program))
  | function (parameters : List String) (body : Program)
  | functionOf (arity : Nat) (name : String) (body : Program)
  | normalize (term : Program) (tag : String)
  | normalizeLambda (term : Program) (tag : String)
  | part (term : Program) (path : List Expr.Step)
  | fail (error : BuildError)
  | throw (message : String)
  | attempt (term fallback : Program)
  | orElse (term fallback : Program)

instance : Inhabited Program := ⟨.literal .null⟩

/-- A lambda node from a host function. -/
def Program.lambdaOf (function : Program) : Program := .normalizeLambda function "lambda"

/-- What a name stands for: one node, or the list of variables of a function. -/
inductive Binding where
  | node (expr : Expr)
  | nodes (exprs : List Expr)

/-- Names and what they stand for, the latest first. -/
abbrev Env := List (String × Binding)

namespace Env

def bind (env : Env) (name : String) (expr : Expr) : Env := (name, .node expr) :: env

/-- Binds parameters in order; one without a node would stand for null. -/
def bindAll (env : Env) : List String → List Expr → Env
  | [], _ => env
  | name :: names, [] => bindAll (env.bind name .null) names []
  | name :: names, e :: rest => bindAll (env.bind name e) names rest

/-- Binds a name with the number of its node to each node, and the name alone to all of them. -/
def bindNumbered (env : Env) (name : String) (exprs : List Expr) : Env :=
  (name, .nodes exprs) ::
    (exprs.zipIdx.map fun (e, i) => (name ++ toString i, Binding.node e)).reverse ++ env

/-- The argument that a name stands for. -/
def argument (env : Env) (name : String) : Argument :=
  match env.lookup name with
  | some (.node e) => .node e
  | some (.nodes es) => .array (es.map .node)
  | none => .null

/-- The arguments that a name contributes to a list. -/
def arguments (env : Env) (name : String) : List Argument :=
  match env.lookup name with
  | some (.node e) => [.node e]
  | some (.nodes es) => es.map .node
  | none => []

end Env

end QueryTree

import QueryTree.Program.Run

/-!
# Sessions

A session keeps the nodes that were built under a name, and the count of bound implicit variables,
from one request to the next. A request that ends with an exception or an error binds no name.
-/

namespace QueryTree

structure Session where
  env : Env
  bound : Nat

inductive Request where
  | build (term : Program) (name : Option String)
  | evaluate (term : Program)
  | compare (left right : Program)

/-- Two nodes or errors, side by side. -/
structure Comparison where
  left : Except BuildError Expr
  right : Except BuildError Expr

/-- Equal nodes, or equal errors. -/
def Comparison.agrees (c : Comparison) : Bool :=
  match c.left, c.right with
  | .ok a, .ok b => a.same b
  | .error a, .error b => a == b
  | _, _ => false

inductive Answer where
  | built (result : Except Stop Expr)
  | evaluated (result : Except Stop Argument)
  | compared (result : Except Stop Comparison)

namespace Session

def start : Session := ⟨[], 0⟩

/-- Runs a build with the count of the session. -/
def perform {α : Type} (s : Session) (x : Env → Build α) : Except Stop α × Session :=
  match x s.env s.bound with
  | .ok a bound => (.ok a, { s with bound := bound })
  | .error stop bound => (.error stop, { s with bound := bound })

def evaluate (s : Session) (term : Program) : Except Stop Argument × Session :=
  s.perform (fun env => term.run .byDepth env)

/-- Builds a term, and binds its node to the name if there is one. -/
def build (s : Session) (term : Program) (name : Option String) : Except Stop Expr × Session :=
  match s.perform (fun env => term.build .byDepth env), name with
  | (.ok e, s), some name => (.ok e, { s with env := s.env.bind name e })
  | result, _ => result

/-- Builds two terms, the left one first. -/
def compare (s : Session) (left right : Program) : Except Stop Comparison × Session :=
  s.perform fun env => do
    let left ← (left.build .byDepth env).outcome
    return ⟨left, ← (right.build .byDepth env).outcome⟩

def answer (s : Session) : Request → Answer × Session
  | .build term name =>
    let (result, s) := s.build term name
    (.built result, s)
  | .evaluate term =>
    let (result, s) := s.evaluate term
    (.evaluated result, s)
  | .compare left right =>
    let (result, s) := s.compare left right
    (.compared result, s)

def answers (s : Session) : List Request → List Answer × Session
  | [] => ([], s)
  | request :: rest =>
    let (first, s) := s.answer request
    let (more, s) := answers s rest
    (first :: more, s)

end Session

end QueryTree

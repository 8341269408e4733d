/-!
# Build errors

Why a builder refuses its operands. Each error names the tag of the builder that raised it.
-/

namespace QueryTree

inductive BuildError where
  | arity (tag : String) (least given : Nat)
  | functionNotAllowed (tag : String)
  | emptyLambda (tag : String)
  | lambdaArity (tag : String) (expected found : Nat)
  | invalidBinding (tag : String) (found : String)
deriving DecidableEq

namespace BuildError

def tag : BuildError → String
  | .arity tag .. => tag
  | .functionNotAllowed tag => tag
  | .emptyLambda tag => tag
  | .lambdaArity tag .. => tag
  | .invalidBinding tag _ => tag

def message : BuildError → String
  | .arity tag least given =>
    tag ++ " expects at least " ++ toString least ++ " argument(s), got " ++ toString given
  | .functionNotAllowed tag => tag ++ " received a function where a value is required"
  | .emptyLambda tag => tag ++ " received a lambda that declares no parameters"
  | .lambdaArity tag expected found =>
    tag ++ " binds " ++ toString expected ++ " variable(s) but the function takes " ++
      toString found
  | .invalidBinding tag found =>
    tag ++ " expects a variable name or a list of names, got " ++ found

end BuildError

end QueryTree

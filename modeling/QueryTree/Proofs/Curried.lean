import QueryTree.Proofs.Depth
import QueryTree.Proofs.Names
import QueryTree.Proofs.Prebuilt

/-!
# Functions that give functions

A function that gives another one becomes a lambda around the lambda of the other, and so on. The
names go on from one lambda to the next, so that all of them are distinct. Each function is called
on the variables of its own names. A function without parameters ends this with an error, and is
not called.
-/

namespace QueryTree

/-! ## Names of a chain -/

/-- The names for functions of the arities that give one another. Each one starts at the number of
variables bound around it. -/
def curriedNames (first : Nat) (arities : List Nat) : List (List String) :=
  arities.mapIdx fun i n => implicitNames ((arities.take i).foldl (· + ·) first) n

theorem curriedNames_cons (first n : Nat) (rest : List Nat) :
    curriedNames first (n :: rest) = implicitNames first n :: curriedNames (first + n) rest := by
  simp [curriedNames, List.mapIdx_cons]

theorem length_curriedNames (first : Nat) (arities : List Nat) :
    (curriedNames first arities).length = arities.length := List.length_mapIdx

theorem implicitNames_append (first m n : Nat) :
    implicitNames first m ++ implicitNames (first + m) n = implicitNames first (m + n) := by
  rw [implicitNames, implicitNames, implicitNames, ← List.map_append, List.range'_append_1]

theorem nodup_implicitNames (first n : Nat) : (implicitNames first n).Nodup :=
  List.Nodup.map (fun _ _ => implicitName_injective) List.nodup_range'

theorem foldl_add (first : Nat) (arities : List Nat) :
    arities.foldl (· + ·) first = first + arities.foldl (· + ·) 0 := by
  induction arities generalizing first with
  | nil => rfl
  | cons n rest ih => rw [List.foldl_cons, List.foldl_cons, ih, ih (0 + n), Nat.zero_add,
      Nat.add_assoc]

/-- One after the other, the names are numbered on. -/
theorem flatten_curriedNames (first : Nat) (arities : List Nat) :
    (curriedNames first arities).flatten = implicitNames first (arities.foldl (· + ·) 0) := by
  induction arities generalizing first with
  | nil => rfl
  | cons n rest ih =>
    rw [curriedNames_cons, List.flatten_cons, ih, implicitNames_append, List.foldl_cons,
      Nat.zero_add, foldl_add n]

/-- A single name stands alone, any other number of names in an array. -/
theorem parameterNode_implicitNames (first n : Nat) :
    parameterNode (implicitNames first n) =
      if n = 1 then .string (implicitName first)
      else .array ((implicitNames first n).map Expr.string) := by
  match n with
  | 0 => rfl
  | 1 => rfl
  | n + 2 => exact (if_neg (by omega)).symm

/-- Lambda nodes for lists of names, each in the one before it, around a body. -/
def lambdaNodes (names : List (List String)) (body : Expr) : Expr :=
  names.foldr (fun names body => lambdaNode (parameterNode names) body) body

/-! ## The chain -/

namespace Argument

/-- Calling the argument on the first nodes and, one after the other, what is given on the next ones
leads to the last argument. So many variables are bound before the first call, and those that a
function takes while it is called; it ends at the count at which it is called. -/
inductive Leads : Argument → Nat → List (List Expr) → Argument → Prop
  | here (a : Argument) (bound : Nat) : Leads a bound [] a
  | call {n bound : Nat} {body : List Expr → Build Argument} {es : List Expr} {a b : Argument}
      {calls : List (List Expr)} : es.length = n → body es (bound + n) = .ok a (bound + n) →
      Leads a (bound + n) calls b → Leads (.function n body) bound (es :: calls) b

/-- A function term ends at the count at which it is called anyway. -/
theorem Leads.given {env : Env} {f : Program} {n bound atEnd : Nat} {es : List Expr}
    {a b : Argument} {calls : List (List Expr)} (hlength : es.length = n)
    (hbody : f.hosted .byDepth env es (bound + n) = .ok a atEnd)
    (h : Leads a (bound + n) calls b) : Leads (f.given env n) bound (es :: calls) b := by
  have hcount := (Program.balanced_hosted env f es).of_ok hbody
  subst hcount
  exact .call hlength hbody h

variable (tag : String)

/-- One function of a chain: its lambda stands around the node of what it gives, and the count is
what it was, also where that has no node. -/
theorem normalizeLambda_call {n bound : Nat} {body : List Expr → Build Argument} {a : Argument}
    (hn : n ≠ 0)
    (hbody : body ((implicitNames bound n).map variableNode) (bound + n) = .ok a (bound + n)) :
    (∀ e atEnd, a.normalizeLambda .byDepth tag (bound + n) = .ok e atEnd →
      (Argument.function n body).normalizeLambda .byDepth tag bound =
        .ok (lambdaNode (parameterNode (implicitNames bound n)) e) bound) ∧
    ∀ stop atEnd, a.normalizeLambda .byDepth tag (bound + n) = .error stop atEnd →
      (Argument.function n body).normalizeLambda .byDepth tag bound = .error stop bound := by
  obtain ⟨n, rfl⟩ := Nat.exists_eq_succ_of_ne_zero hn
  constructor
  · intro e atEnd h
    simp only [normalizeLambda, Build.binding, hbody, normalizeEnding, h, Numbering.leave]
  · intro stop atEnd h
    simp only [normalizeLambda, Build.binding, hbody, normalizeEnding, h, Numbering.leave]

/-- A chain of functions: their lambdas stand one in the other around the node of what the last one
gives. -/
theorem normalizeLambda_chain {bound : Nat} {arities : List Nat} {a b : Argument}
    (hpositive : ∀ n ∈ arities, n ≠ 0)
    (h : a.Leads bound ((curriedNames bound arities).map fun names => names.map variableNode) b) :
    (∀ e atEnd, b.normalizeLambda .byDepth tag (arities.foldl (· + ·) bound) = .ok e atEnd →
      a.normalizeLambda .byDepth tag bound = .ok (lambdaNodes (curriedNames bound arities) e) bound) ∧
    ∀ stop atEnd, b.normalizeLambda .byDepth tag (arities.foldl (· + ·) bound) = .error stop atEnd →
      a.normalizeLambda .byDepth tag bound = .error stop bound := by
  induction arities generalizing bound a with
  | nil =>
    -- Without a function `a` is `b` itself, which ends at the count at which it starts.
    cases h
    have hbalanced := balanced_normalizeLambda tag b
    constructor
    · intro e atEnd hok
      exact hok.trans (congrArg _ (hbalanced.of_ok hok))
    · intro stop atEnd herror
      exact herror.trans (congrArg _ (hbalanced.of_error herror))
  | cons n rest ih =>
    obtain ⟨hn, hrest⟩ := List.forall_mem_cons.1 hpositive
    rw [curriedNames_cons, List.map_cons] at h
    cases h with
    | call hlength hbody hleads =>
      have harity : (implicitNames bound n).length = n := by
        rw [implicitNames, List.length_map, List.length_range']
      rw [List.length_map, harity] at hlength
      subst hlength
      -- The functions further in start at the count that the names of this one lead to.
      obtain ⟨hok, herror⟩ := ih hrest hleads
      obtain ⟨hnode, hstop⟩ := normalizeLambda_call tag hn hbody
      rw [List.foldl_cons, curriedNames_cons]
      constructor
      · exact fun e atEnd h => hnode _ _ (hok e atEnd h)
      · exact fun stop atEnd h => hstop _ _ (herror stop atEnd h)

/-- A chain of functions that take at least one parameter each, called from a count on, each on the
variables of its own names. If it leads to a value that has a node, it becomes as many lambdas, one
in the other around this node, and their names are numbered on from the count, each of them once. If
it leads to a function without parameters, there is an error with the tag, whatever this function
would do. The count is the same afterwards. -/
theorem curried_numbered {bound : Nat} {arities : List Nat} {a b : Argument}
    (hpositive : ∀ n ∈ arities, n ≠ 0)
    (h : a.Leads bound ((curriedNames bound arities).map fun names => names.map variableNode) b) :
    (∀ e, b.arity? = none → b.normalize tag = .ok e →
      a.normalizeLambda .byDepth tag bound =
        .ok (lambdaNodes (curriedNames bound arities) e) bound) ∧
    (∀ body, b = .function 0 body →
      a.normalizeLambda .byDepth tag bound = .error (.failed (.emptyLambda tag)) bound) ∧
    (curriedNames bound arities).length = arities.length ∧
    (∀ i n, arities[i]? = some n → ∃ names, (curriedNames bound arities)[i]? = some names ∧
      names = (List.range' ((arities.take i).foldl (· + ·) bound) n).map implicitName ∧
      parameterNode names =
        if n = 1 then .string (implicitName ((arities.take i).foldl (· + ·) bound))
        else .array (names.map Expr.string)) ∧
    (curriedNames bound arities).flatten.Nodup := by
  obtain ⟨hok, herror⟩ := normalizeLambda_chain tag hpositive h
  refine ⟨?_, ?_, length_curriedNames bound arities, ?_, ?_⟩
  · intro e hvalue he
    apply hok e (arities.foldl (· + ·) bound)
    rw [normalizeLambda_of_data .byDepth hvalue, he]
    rfl
  · rintro body rfl
    exact herror _ (arities.foldl (· + ·) bound) rfl
  · intro i n hi
    refine ⟨implicitNames ((arities.take i).foldl (· + ·) bound) n, ?_, rfl, ?_⟩
    · rw [curriedNames, List.getElem?_mapIdx, hi, Option.map_some]
    · exact parameterNode_implicitNames _ n
  · rw [flatten_curriedNames]
    exact nodup_implicitNames bound _

/-- Three functions, of which the last one gives the variables of all; and a function without
parameters that would throw, below one with two. -/
theorem curried_numbered_mixed :
    let chain : Program := .function ["x"] (.functionOf 2 "p"
      (.function ["y"] (.list [.get "x", .spread "p", .get "y"])))
    let broken : Program := .functionOf 2 "p" (.functionOf 0 "q" (.throw "called"))
    let names : List (List String) :=
      [["_implicit5"], ["_implicit6", "_implicit7"], ["_implicit8"]]
    (chain.given [] 1).normalizeLambda .byDepth "map" 5 =
        .ok (lambdaNodes names (.array (names.flatten.map variableNode))) 5 ∧
      names.flatten.Nodup ∧
      (broken.given [] 2).normalizeLambda .byDepth "map" 5 =
        .error (.failed (.emptyLambda "map")) 5 := by
  intro chain broken names
  have hnames : curriedNames 5 [1, 2, 1] = names := rfl
  have hchain : (chain.given [] 1).Leads 5
      ((curriedNames 5 [1, 2, 1]).map fun names => names.map variableNode)
      (.array (names.flatten.map fun name => .node (variableNode name))) :=
    .given rfl rfl (.call rfl rfl (.call rfl rfl (.here _ _)))
  have hbroken : (broken.given [] 2).Leads 5
      ((curriedNames 5 [2]).map fun names => names.map variableNode)
      (.function 0 fun _ bound => .error (.thrown "called") bound) :=
    .given rfl rfl (.here _ _)
  obtain ⟨hok, -, -, -, hnodup⟩ := curried_numbered "map" (by decide) hchain
  obtain ⟨-, herror, -⟩ := curried_numbered "map" (by decide) hbroken
  rw [hnames] at hok hnodup
  exact ⟨hok _ rfl rfl, hnodup, herror _ rfl⟩

end Argument

end QueryTree

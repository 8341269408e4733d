import QueryTree.Argument.Normalize
import QueryTree.Proofs.Usage

/-!
# Names and their binders

A lambda declares names in its body, and a let in its body and in the bindings that follow. A
variable refers to the nearest binder around it that declares its name. The resolved form of a node
shows this: a bound variable holds the place of its name among those in scope, and a lambda only
the number of its names, so that the names themselves no longer matter.
-/

namespace QueryTree

theorem implicitName_injective {m n : Nat} (h : implicitName m = implicitName n) : m = n := by
  have hdigits := congrArg String.toList h
  simp only [implicitName, String.toList_append, List.append_cancel_left_eq] at hdigits
  simpa using congrArg (Nat.ofDigitChars 10 · 0) hdigits

theorem implicitName_inj {m n : Nat} : implicitName m = implicitName n ↔ m = n :=
  ⟨implicitName_injective, congrArg implicitName⟩

theorem mem_implicitNames {first n k : Nat} :
    implicitName k ∈ implicitNames first n ↔ first ≤ k ∧ k < first + n := by
  simp only [implicitNames, List.mem_map, List.mem_range'_1]
  constructor
  · rintro ⟨j, hj, hname⟩
    exact implicitName_injective hname ▸ hj
  · exact fun hk => ⟨k, hk, rfl⟩

theorem length_implicitNames (first n : Nat) : (implicitNames first n).length = n := by
  rw [implicitNames, List.length_map, List.length_range']

theorem implicitNames_eq_map_range (first n : Nat) :
    implicitNames first n = (List.range n).map fun j => implicitName (first + j) := by
  rw [implicitNames, List.range'_eq_map_range, List.map_map]
  rfl

/-- A name that is not of the form of implicit variables. -/
def Explicit (name : String) : Prop := ∀ k, name ≠ implicitName k

/-- Where runs of one term start: by depth with so many bound variables, of which the last ones may
have explicit names instead of numbers, and afresh with numbers from the first one on. -/
structure Outset where
  depth : Nat
  first : Nat
  names : List String
  explicit : ∀ name ∈ names, Explicit name

/-- Runs that start with numbered variables only. -/
def Outset.numbered (depth first : Nat) : Outset :=
  ⟨depth, first, [], fun _ h => absurd h List.not_mem_nil⟩

/-- The name by depth of a variable in scope. -/
def Outset.name (o : Outset) (i : Nat) : String :=
  if i < o.depth then implicitName i
  else (o.names[i - o.depth]?).getD (implicitName (i - o.names.length))

/-- A name that stands for the same in both runs. -/
def Outset.Apart (o : Outset) (name : String) : Prop := Explicit name ∧ name ∉ o.names

theorem Outset.name_of_le {o : Outset} {i : Nat} (h : o.depth + o.names.length ≤ i) :
    o.name i = implicitName (i - o.names.length) := by
  rw [name, if_neg (by omega), List.getElem?_eq_none (by omega)]
  rfl

theorem Outset.name_cases (o : Outset) (i : Nat) : (i < o.depth ∧ o.name i = implicitName i) ∨
    o.name i ∈ o.names ∨
      (o.depth + o.names.length ≤ i ∧ o.name i = implicitName (i - o.names.length)) := by
  by_cases hdepth : i < o.depth
  · exact .inl ⟨hdepth, if_pos hdepth⟩
  · by_cases hi : o.depth + o.names.length ≤ i
    · exact .inr (.inr ⟨hi, name_of_le hi⟩)
    · refine .inr (.inl ?_)
      rw [name, if_neg hdepth, List.getElem?_eq_getElem (by omega)]
      exact List.getElem_mem _

theorem Outset.not_apart_name (o : Outset) (i : Nat) : ¬o.Apart (o.name i) := by
  rintro ⟨hexplicit, hnot⟩
  rcases o.name_cases i with ⟨-, hname⟩ | hmem | ⟨-, hname⟩
  · exact hexplicit _ hname
  · exact hnot hmem
  · exact hexplicit _ hname

namespace Expr

/-! ## Subterms -/

mutual

/-- The nodes in a node, itself first. -/
def subterms : Expr → List Expr
  | .literal value => [.literal value]
  | .array items => .array items :: subtermsItems items
  | .object fields => .object fields :: subtermsFields fields
  | .binding name value => .binding name value :: subterms value
  | .operation tag operand fields =>
    .operation tag operand fields :: (subterms operand ++ subtermsFields fields)

def subtermsItems : List Expr → List Expr
  | [] => []
  | e :: rest => subterms e ++ subtermsItems rest

def subtermsFields : List (String × Expr) → List Expr
  | [] => []
  | (_, e) :: rest => subterms e ++ subtermsFields rest

end

theorem mem_subtermsItems {s : Expr} {items : List Expr} :
    s ∈ subtermsItems items ↔ ∃ e ∈ items, s ∈ e.subterms := by
  induction items with
  | nil => simp [subtermsItems]
  | cons e rest ih => simp [subtermsItems, ih]

theorem mem_subtermsFields {s : Expr} {fields : List (String × Expr)} :
    s ∈ subtermsFields fields ↔ ∃ p ∈ fields, s ∈ p.2.subterms := by
  induction fields with
  | nil => simp [subtermsFields]
  | cons p rest ih => simp [subtermsFields, ih]

/-! ## Binders -/

/-- The name that an item of a let declares for the items after it. -/
def declared : Expr → List String
  | .binding name _ => [name]
  | _ => []

/-- The names that an operation declares in its fields. -/
def binds (tag : String) (operand : Expr) : List String :=
  if tag = "lambda" then operand.offered
  else if tag = "let" then (operand.elements?.getD []).flatMap declared
  else []

/-- The names that an operation refers to. -/
def refers : Expr → List String
  | .operation tag operand _ => if tag = "var" then operand.string?.toList else []
  | _ => []

/-- The names that an operation declares. -/
def declares : Expr → List String
  | .operation tag operand _ => binds tag operand
  | _ => []

/-- The names of all variables in a node. -/
def referred (e : Expr) : List String := e.subterms.flatMap refers

/-! ## Resolved form -/

/-- The place of a name among those in scope, the nearest one first. -/
def position (name : String) : List String → Option Nat
  | [] => none
  | other :: scope => if name = other then some 0 else (position name scope).map (· + 1)

/-- So many places. -/
def marks (n : Nat) : Expr := .array (List.replicate n .null)

/-- The place in scope that the operand of a variable refers to. -/
def reference? (scope : List String) (operand : Expr) : Option Expr :=
  (operand.string? >>= (position · scope)).map marks

mutual

/-- The node with places for the names that are bound in it or in scope around it. -/
def resolved (scope : List String) : Expr → Expr
  | .literal value => .literal value
  | .array items => .array (resolvedItems scope items)
  | .object fields => .object (resolvedFields scope fields)
  | .binding name value => .binding name (resolved scope value)
  | .operation tag operand fields =>
    .operation tag
      (if tag = "var" then (reference? scope operand).getD (resolved scope operand)
        else if tag = "lambda" then marks operand.offered.length
        else resolved scope operand)
      (resolvedFields ((binds tag operand).reverse ++ scope) fields)

def resolvedItems (scope : List String) : List Expr → List Expr
  | [] => []
  | e :: rest => resolved scope e :: resolvedItems (e.declared ++ scope) rest

def resolvedFields (scope : List String) : List (String × Expr) → List (String × Expr)
  | [] => []
  | (name, e) :: rest => (name, resolved scope e) :: resolvedFields scope rest

end

/-- The names that a node takes from around it. -/
def free (e : Expr) : List String := (e.resolved []).referred

theorem resolvedFields_eq_map (scope : List String) (fields : List (String × Expr)) :
    resolvedFields scope fields = fields.map fun p => (p.1, p.2.resolved scope) := by
  induction fields with
  | nil => rfl
  | cons p rest ih => simp [resolvedFields, ih]

theorem resolvedItems_eq_map {items : List Expr} (h : ∀ e ∈ items, e.declared = [])
    (scope : List String) : resolvedItems scope items = items.map (resolved scope) := by
  induction items with
  | nil => rfl
  | cons e rest ih =>
    rw [resolvedItems, h e List.mem_cons_self, List.nil_append, List.map_cons,
      ih fun e he => h e (List.mem_cons_of_mem _ he)]

theorem resolved_operation {tag : String} (h : tag ∉ ["var", "lambda", "let"]) (scope : List String)
    (operand : Expr) (fields : List (String × Expr)) :
    (operation tag operand fields).resolved scope =
      .operation tag (operand.resolved scope) (fields.map fun p => (p.1, p.2.resolved scope)) := by
  simp only [List.mem_cons, List.not_mem_nil, or_false, not_or] at h
  simp [resolved, binds, h, resolvedFields_eq_map]

theorem resolved_variableNode (scope : List String) (name : String) :
    (variableNode name).resolved scope =
      .operation "var" (((position name scope).map marks).getD (.string name)) [] := rfl

theorem resolved_lambdaNode (scope : List String) (parameters body : Expr) :
    (lambdaNode parameters body).resolved scope =
      lambdaNode (marks parameters.offered.length)
        (body.resolved (parameters.offered.reverse ++ scope)) := by
  simp [lambdaNode, resolved, binds, resolvedFields]

theorem binds_let (values : List (String × Expr)) :
    binds "let" (.array (values.map fun p => .binding p.1 p.2)) = values.map Prod.fst := by
  have hnames : (values.map fun p => Expr.binding p.1 p.2).flatMap declared =
      values.map Prod.fst := by
    rw [List.flatMap_map, List.map_eq_flatMap]
    rfl
  simp [binds, elements?, hnames]

theorem resolved_let (scope : List String) (values : List (String × Expr)) (body : Expr) :
    (operation "let" (.array (values.map fun p => .binding p.1 p.2)) [("in", body)]).resolved
        scope =
      .operation "let"
        (.array (resolvedItems scope (values.map fun p => .binding p.1 p.2)))
        [("in", body.resolved ((values.map Prod.fst).reverse ++ scope))] := by
  simp [resolved, binds_let, resolvedFields]

theorem offered_parameterNode (names : List String) : (parameterNode names).offered = names := by
  match names with
  | [] => rfl
  | [name] => rfl
  | name :: other :: rest =>
    simp [parameterNode, offered, List.filterMap_map, Function.comp_def, Expr.string, string?,
      literal?, Literal.string?]

/-! ## What holds of every node in a node -/

/-- The property holds of the node and of all nodes in it. -/
def Everywhere (Q : Expr → Prop) (e : Expr) : Prop := ∀ s ∈ e.subterms, Q s

/-- Nodes in it that declare one implicit name are the same. -/
def DeclaresOnce (e : Expr) : Prop := ∀ s ∈ e.subterms, ∀ t ∈ e.subterms, ∀ k,
  implicitName k ∈ s.declares → implicitName k ∈ t.declares → s = t

section

variable {Q : Expr → Prop}

theorem everywhere_literal {value : Literal} (h : Q (literal value)) :
    (literal value).Everywhere Q := by
  intro s hs
  rw [subterms, List.mem_singleton] at hs
  exact hs ▸ h

theorem everywhere_array {items : List Expr} (h : Q (array items))
    (hitems : ∀ e ∈ items, e.Everywhere Q) : (array items).Everywhere Q := by
  intro s hs
  rw [subterms, List.mem_cons, mem_subtermsItems] at hs
  rcases hs with rfl | ⟨e, he, hs⟩
  · exact h
  · exact hitems e he s hs

theorem everywhere_object {fields : List (String × Expr)} (h : Q (object fields))
    (hfields : ∀ p ∈ fields, p.2.Everywhere Q) : (object fields).Everywhere Q := by
  intro s hs
  rw [subterms, List.mem_cons, mem_subtermsFields] at hs
  rcases hs with rfl | ⟨p, hp, hs⟩
  · exact h
  · exact hfields p hp s hs

theorem everywhere_binding {name : String} {value : Expr} (h : Q (binding name value))
    (hvalue : value.Everywhere Q) : (binding name value).Everywhere Q := by
  intro s hs
  rw [subterms, List.mem_cons] at hs
  rcases hs with rfl | hs
  · exact h
  · exact hvalue s hs

theorem everywhere_operation {tag : String} {operand : Expr} {fields : List (String × Expr)}
    (h : Q (operation tag operand fields)) (hoperand : operand.Everywhere Q)
    (hfields : ∀ p ∈ fields, p.2.Everywhere Q) : (operation tag operand fields).Everywhere Q := by
  intro s hs
  rw [subterms, List.mem_cons, List.mem_append, mem_subtermsFields] at hs
  rcases hs with rfl | hs | ⟨p, hp, hs⟩
  · exact h
  · exact hoperand s hs
  · exact hfields p hp s hs

theorem everywhere_parameterNode (hliteral : ∀ value, Q (.literal value))
    (harray : ∀ items, Q (.array items)) (names : List String) :
    (parameterNode names).Everywhere Q := by
  have hstrings : (Expr.array (names.map Expr.string)).Everywhere Q := by
    apply everywhere_array (harray _)
    intro e he
    obtain ⟨name, -, rfl⟩ := List.mem_map.1 he
    exact everywhere_literal (hliteral _)
  match names with
  | [] => exact hstrings
  | [name] => exact everywhere_literal (hliteral _)
  | _ :: _ :: _ => exact hstrings

theorem Everywhere.imp {Q' : Expr → Prop} {e : Expr} (h : e.Everywhere Q)
    (himp : ∀ s, Q s → Q' s) : e.Everywhere Q' := fun s hs => himp s (h s hs)

end

end Expr

end QueryTree

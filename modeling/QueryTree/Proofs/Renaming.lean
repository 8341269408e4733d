import QueryTree.Proofs.Names

/-!
# Renaming

A function on names takes the names of variables and lambdas in a node to other ones. Names of let
bindings stay: no implicit name stands there. A function on numbers gives one on names, which leaves
explicit names as they are.
-/

namespace QueryTree

/-! ## Numbers of names -/

/-- The number in an implicit name. -/
def number (name : String) : Nat := Nat.ofDigitChars 10 (name.toList.drop 9) 0

@[simp] theorem number_implicitName (k : Nat) : number (implicitName k) = k := by
  simp [number, implicitName]

theorem explicit_iff {name : String} : Explicit name ↔ name ≠ implicitName (number name) := by
  refine ⟨fun h => h _, fun h k hk => h ?_⟩
  rw [hk, number_implicitName]

/-- Gives each implicit name another one by its number. -/
def renumber (g : Nat → String) (name : String) : String :=
  if name = implicitName (number name) then g (number name) else name

@[simp] theorem renumber_implicitName (g : Nat → String) (k : Nat) :
    renumber g (implicitName k) = g k := by
  simp [renumber]

theorem renumber_of_explicit {name : String} (h : Explicit name) (g : Nat → String) :
    renumber g name = name := if_neg (explicit_iff.1 h)

theorem renumber_eq {g g' : Nat → String} {name : String}
    (h : ∀ k, name = implicitName k → g k = g' k) : renumber g name = renumber g' name := by
  unfold renumber
  by_cases hname : name = implicitName (number name)
  · rw [if_pos hname, if_pos hname, h _ hname]
  · rw [if_neg hname, if_neg hname]

namespace Expr

/-! ## Renaming -/

/-- Renames a text, and leaves other nodes as they are. -/
def renameString (φ : String → String) (e : Expr) : Expr := (e.string?.map (string ∘ φ)).getD e

/-- Renames the names that a node refers to or declares. -/
def renameNames (φ : String → String) : Expr → Expr
  | .array items => .array (items.map (renameString φ))
  | e => renameString φ e

mutual

/-- Renames variables and the names that lambdas declare. -/
def rename (φ : String → String) : Expr → Expr
  | .literal value => .literal value
  | .array items => .array (renameItems φ items)
  | .object fields => .object (renameFields φ fields)
  | .binding name value => .binding name (rename φ value)
  | .operation tag operand fields =>
    .operation tag
      (if tag = "var" then renameString φ operand
        else if tag = "lambda" then renameNames φ operand
        else rename φ operand)
      (renameFields φ fields)

def renameItems (φ : String → String) : List Expr → List Expr
  | [] => []
  | e :: rest => rename φ e :: renameItems φ rest

def renameFields (φ : String → String) : List (String × Expr) → List (String × Expr)
  | [] => []
  | (name, e) :: rest => (name, rename φ e) :: renameFields φ rest

end

@[simp] theorem renameItems_eq_map (φ : String → String) (items : List Expr) :
    renameItems φ items = items.map (rename φ) := by
  induction items with
  | nil => rfl
  | cons e rest ih => simp [renameItems, ih]

@[simp] theorem renameFields_eq_map (φ : String → String) (fields : List (String × Expr)) :
    renameFields φ fields = fields.map fun p => (p.1, p.2.rename φ) := by
  induction fields with
  | nil => rfl
  | cons p rest ih => simp [renameFields, ih]

variable {φ ψ : String → String}

theorem renameString_congr {e : Expr} (h : ∀ name, e.string? = some name → φ name = ψ name) :
    e.renameString φ = e.renameString ψ := by
  unfold renameString
  cases hname : e.string? with
  | none => rfl
  | some name => simp [h name hname]

theorem renameNames_congr {e : Expr} (h : ∀ name ∈ e.offered, φ name = ψ name) :
    e.renameNames φ = e.renameNames ψ := by
  cases e with
  | array items =>
    refine congrArg Expr.array (List.map_congr_left fun e he => renameString_congr ?_)
    exact fun name hname => h name (List.mem_filterMap.2 ⟨e, he, hname⟩)
  | literal value =>
    refine renameString_congr fun name hname => h name ?_
    rw [string?_eq_some hname]
    exact List.mem_singleton.2 rfl
  | _ => rfl

/-- The names of a node itself, which renaming changes. -/
def ownNames (e : Expr) : List String := e.refers ++ e.declares

/-- The implicit names of a node itself have numbers below a bound. -/
def NumbersBelow (bound : Nat) (s : Expr) : Prop := ∀ k, implicitName k ∈ s.ownNames → k < bound

theorem numbersBelow_of_nil {bound : Nat} {s : Expr} (h : s.ownNames = []) :
    NumbersBelow bound s := by
  intro k hk
  rw [h] at hk
  cases hk

theorem exists_numbersBelow (es : List Expr) :
    ∃ bound, ∀ e ∈ es, e.Everywhere (NumbersBelow bound) := by
  have hnames : ∀ names : List String, ∃ bound, ∀ k, implicitName k ∈ names → k < bound := by
    intro names
    induction names with
    | nil => exact ⟨0, nofun⟩
    | cons name rest ih =>
      obtain ⟨bound, hbound⟩ := ih
      refine ⟨max bound (number name + 1), fun k hk => ?_⟩
      rcases List.mem_cons.1 hk with rfl | hk
      · rw [number_implicitName]
        exact Nat.lt_of_lt_of_le (Nat.lt_succ_self k) (Nat.le_max_right _ _)
      · exact Nat.lt_of_lt_of_le (hbound k hk) (Nat.le_max_left _ _)
  obtain ⟨bound, hbound⟩ := hnames ((es.flatMap subterms).flatMap ownNames)
  refine ⟨bound, fun e he s hs k hk => hbound k ?_⟩
  exact List.mem_flatMap.2 ⟨s, List.mem_flatMap.2 ⟨e, he, hs⟩, hk⟩

mutual

/-- Functions that agree on the names of a node rename it alike. -/
theorem rename_congr : ∀ e : Expr, (∀ s ∈ e.subterms, ∀ name ∈ s.ownNames, φ name = ψ name) →
    e.rename φ = e.rename ψ
  | .literal _, _ => rfl
  | .array items, h => congrArg Expr.array
      (renameItems_congr items fun s hs => h s (List.mem_cons_of_mem _ hs))
  | .object fields, h => congrArg Expr.object
      (renameFields_congr fields fun s hs => h s (List.mem_cons_of_mem _ hs))
  | .binding name value, h => congrArg (Expr.binding name)
      (rename_congr value fun s hs => h s (List.mem_cons_of_mem _ hs))
  | .operation tag operand fields, h => by
    have hfields := renameFields_congr fields fun s hs =>
      h s (List.mem_cons_of_mem _ (List.mem_append_right _ hs))
    have hoperand := rename_congr operand fun s hs =>
      h s (List.mem_cons_of_mem _ (List.mem_append_left _ hs))
    have hown := h _ List.mem_cons_self
    simp only [rename, hfields, hoperand]
    by_cases hvar : tag = "var"
    · rw [if_pos hvar, if_pos hvar, renameString_congr fun name hname => hown name ?_]
      simp [ownNames, refers, hvar, hname]
    · rw [if_neg hvar, if_neg hvar]
      by_cases hlambda : tag = "lambda"
      · rw [if_pos hlambda, if_pos hlambda, renameNames_congr fun name hname => hown name ?_]
        simp [ownNames, declares, binds, hlambda, hname]
      · rw [if_neg hlambda, if_neg hlambda]

theorem renameItems_congr : ∀ items : List Expr,
    (∀ s ∈ subtermsItems items, ∀ name ∈ s.ownNames, φ name = ψ name) →
      renameItems φ items = renameItems ψ items
  | [], _ => rfl
  | e :: rest, h => by
    have he := rename_congr e fun s hs => h s (List.mem_append_left _ hs)
    have hrest := renameItems_congr rest fun s hs => h s (List.mem_append_right _ hs)
    rw [renameItems, renameItems, he, hrest]

theorem renameFields_congr : ∀ fields : List (String × Expr),
    (∀ s ∈ subtermsFields fields, ∀ name ∈ s.ownNames, φ name = ψ name) →
      renameFields φ fields = renameFields ψ fields
  | [], _ => rfl
  | (name, e) :: rest, h => by
    have he := rename_congr e fun s hs => h s (List.mem_append_left _ hs)
    have hrest := renameFields_congr rest fun s hs => h s (List.mem_append_right _ hs)
    rw [renameFields, renameFields, he, hrest]

end

theorem rename_operation {tag : String} (h : tag ∉ ["var", "lambda"]) (operand : Expr)
    (fields : List (String × Expr)) : (operation tag operand fields).rename φ =
      .operation tag (operand.rename φ) (fields.map fun p => (p.1, p.2.rename φ)) := by
  simp only [List.mem_cons, List.not_mem_nil, or_false, not_or] at h
  simp [rename, h]

theorem rename_variableNode (φ : String → String) (name : String) :
    (variableNode name).rename φ = variableNode (φ name) := rfl

theorem rename_lambdaNode (φ : String → String) (parameters body : Expr) :
    (lambdaNode parameters body).rename φ =
      lambdaNode (parameters.renameNames φ) (body.rename φ) := by
  simp [lambdaNode, rename]

theorem renameNames_strings (φ : String → String) (names : List String) :
    (array (names.map string)).renameNames φ = array ((names.map φ).map string) := by
  simp [renameNames, renameString, string?, literal?, Literal.string?, string, Function.comp_def]

theorem renameNames_parameterNode (φ : String → String) (names : List String) :
    (parameterNode names).renameNames φ = parameterNode (names.map φ) := by
  match names with
  | [] => rfl
  | [name] => rfl
  | _ :: _ :: _ => exact renameNames_strings φ _

@[simp] theorem string?_rename (φ : String → String) (e : Expr) :
    (e.rename φ).string? = e.string? := by
  cases e <;> rfl

theorem nodeNames_rename (φ : String → String) (tag : String) (e : Expr) :
    Argument.nodeNames tag (e.rename φ) = Argument.nodeNames tag e := by
  cases e with
  | array items =>
    simp only [rename, renameItems_eq_map, Argument.nodeNames]
    induction items with
    | nil => rfl
    | cons item rest ih => rw [List.map_cons, List.mapM_cons, List.mapM_cons, ih, string?_rename]
  | _ => rfl

theorem rename_of_nodeNames {tag : String} {e : Expr} {names : List String}
    (h : Argument.nodeNames tag e = .ok names) : e.rename φ = e := by
  rcases Argument.eq_of_nodeNames h with ⟨name, rfl, -⟩ | rfl
  · rfl
  · simp only [rename, renameItems_eq_map, List.map_map]
    rfl

theorem renameNames_of_nodeNames {tag : String} {e : Expr} {names : List String}
    (h : Argument.nodeNames tag e = .ok names) (hφ : ∀ name ∈ names, φ name = name) :
    e.renameNames φ = e := by
  rcases Argument.eq_of_nodeNames h with ⟨name, rfl, rfl⟩ | rfl
  · exact congrArg string (hφ name List.mem_cons_self)
  · rw [renameNames_strings, List.map_congr_left hφ, List.map_id'']
    exact fun _ => rfl

mutual

theorem rename_id : ∀ e : Expr, e.rename id = e
  | .literal _ => rfl
  | .array items => congrArg Expr.array (renameItems_id items)
  | .object fields => congrArg Expr.object (renameFields_id fields)
  | .binding name value => congrArg (Expr.binding name) (rename_id value)
  | .operation tag operand fields => by
    have hstring : ∀ e : Expr, e.renameString id = e := by
      intro e
      unfold renameString
      cases hname : e.string? with
      | none => rfl
      | some name => exact (string?_eq_some hname).symm
    have hnames : operand.renameNames id = operand := by
      cases operand with
      | array items =>
        refine congrArg Expr.array ?_
        rw [List.map_congr_left fun e _ => hstring e, List.map_id'']
        exact fun _ => rfl
      | _ => exact hstring _
    simp only [rename, hstring, hnames, rename_id operand, renameFields_id fields, ite_self]

theorem renameItems_id : ∀ items : List Expr, renameItems id items = items
  | [] => rfl
  | e :: rest => by rw [renameItems, rename_id e, renameItems_id rest]

theorem renameFields_id : ∀ fields : List (String × Expr), renameFields id fields = fields
  | [] => rfl
  | (_, e) :: rest => by rw [renameFields, rename_id e, renameFields_id rest]

end

theorem rename_eq_self {e : Expr} (h : ∀ s ∈ e.subterms, ∀ name ∈ s.ownNames, φ name = name) :
    e.rename φ = e := (rename_congr e h).trans (rename_id e)

/-! ## Renamed nodes side by side -/

section

variable {ι : Type} {base : ι} {label : ι → Nat → String}

/-- All nodes are the one at the base, with other names for its numbers. -/
def Renumbered (base : ι) (label : ι → Nat → String) (e : ι → Expr) : Prop :=
  ∀ i, e i = (e base).rename (renumber (label i))

theorem renumbered_literal (value : Literal) :
    Renumbered base label (fun _ => .literal value) := fun _ => rfl

theorem renumbered_array {es : List (ι → Expr)} (h : ∀ e ∈ es, Renumbered base label e) :
    Renumbered base label (fun i => .array (es.map (· i))) := by
  intro i
  simp only [rename, renameItems_eq_map, List.map_map]
  exact congrArg Expr.array (List.map_congr_left fun e he => h e he i)

theorem renumbered_fields {fields : List (String × (ι → Expr))}
    (h : ∀ p ∈ fields, Renumbered base label p.2) (i : ι) : (fields.map fun p => (p.1, p.2 i)) =
      (fields.map fun p => (p.1, p.2 base)).map fun p =>
        (p.1, p.2.rename (renumber (label i))) := by
  rw [List.map_map]
  exact List.map_congr_left fun p hp => congrArg (Prod.mk p.1) (h p hp i)

theorem renumbered_object {fields : List (String × (ι → Expr))}
    (h : ∀ p ∈ fields, Renumbered base label p.2) :
    Renumbered base label (fun i => .object (fields.map fun p => (p.1, p.2 i))) := by
  intro i
  simp only [rename, renameFields_eq_map]
  exact congrArg Expr.object (renumbered_fields h i)

theorem renumbered_binding (name : String) {e : ι → Expr} (h : Renumbered base label e) :
    Renumbered base label (fun i => .binding name (e i)) :=
  fun i => congrArg (Expr.binding name) (h i)

theorem renumbered_operation {tag : String} (htag : tag ∉ ["var", "lambda"]) {operand : ι → Expr}
    {fields : List (String × (ι → Expr))} (hoperand : Renumbered base label operand)
    (hfields : ∀ p ∈ fields, Renumbered base label p.2) :
    Renumbered base label
      (fun i => .operation tag (operand i) (fields.map fun p => (p.1, p.2 i))) := by
  intro i
  rw [rename_operation htag, ← hoperand i, ← renumbered_fields hfields i]

theorem renumbered_variable {name : ι → String}
    (h : ∀ i, name i = renumber (label i) (name base)) :
    Renumbered base label (fun i => variableNode (name i)) := by
  intro i
  rw [rename_variableNode, ← h i]

theorem renumbered_leaf {value : Leaf} (h : ∀ name, value = .variable name → Explicit name) :
    Renumbered base label (fun _ => value.node) := by
  match value with
  | .variable name =>
    exact renumbered_variable fun _ => (renumber_of_explicit (h name rfl) _).symm
  | .reference _ | .timestamp _ | .date _ | .bytes _ => exact fun _ => rfl

theorem renumbered_lambda {names : ι → List String} {body : ι → Expr}
    (h : ∀ i, names i = (names base).map (renumber (label i)))
    (hbody : Renumbered base label body) :
    Renumbered base label (fun i => lambdaNode (parameterNode (names i)) (body i)) := by
  intro i
  rw [rename_lambdaNode, ← hbody i, renameNames_parameterNode, ← h i]

/-- Under declared names, which stay. -/
theorem renumbered_declared {parameters body : ι → Expr} {tag : String} {names : List String}
    (hparameters : Renumbered base label parameters)
    (hdeclared : ∀ i, Argument.nodeNames tag (parameters i) = .ok names)
    (hnames : ∀ name ∈ names, Explicit name) (hbody : Renumbered base label body) :
    Renumbered base label (fun i => lambdaNode (parameters i) (body i)) := by
  intro i
  have hsame : parameters i = parameters base := by
    rw [hparameters i, rename_of_nodeNames (hdeclared base)]
  simp only [hsame]
  rw [rename_lambdaNode, ← hbody i, renameNames_of_nodeNames (hdeclared base)]
  exact fun name hname => renumber_of_explicit (hnames name hname) _

theorem renumbered_let {values : List (String × (ι → Expr))} {body : ι → Expr}
    (hvalues : ∀ p ∈ values, Renumbered base label p.2) (hbody : Renumbered base label body) :
    Renumbered base label (fun i => .operation "let"
      (.array (values.map fun p => .binding p.1 (p.2 i))) [("in", body i)]) := by
  have hoperand : Renumbered base label
      (fun i => .array (values.map fun p => .binding p.1 (p.2 i))) := by
    have hitems : ∀ e ∈ values.map fun p => fun i => .binding p.1 (p.2 i),
        Renumbered base label e := by
      intro e he
      obtain ⟨p, hp, rfl⟩ := List.mem_map.1 he
      exact renumbered_binding p.1 (hvalues p hp)
    simpa [Function.comp_def] using renumbered_array hitems
  have hfields : ∀ p ∈ [("in", body)], Renumbered base label p.2 := by simpa using hbody
  exact renumbered_operation (by simp) hoperand hfields

end

end Expr

end QueryTree

import QueryTree.Proofs.Leaves

/-!
# Declared names

Where names are declared, an argument is taken if and only if its node is a name or a list of names,
whether it was built before or not, in whole or in part. This node is then the binding. Otherwise
the first element of a list that is not a name decides the error, or the argument itself.
-/

namespace QueryTree

/-- The node is a name, or a list of names. -/
def Expr.Lists (names : List String) (e : Expr) : Prop :=
  (∃ name, e = .string name ∧ names = [name]) ∨ e = .array (names.map .string)

namespace Argument

variable {tag : String}

theorem nodeNames_ok_iff {e : Expr} {names : List String} :
    nodeNames tag e = .ok names ↔ e.Lists names := by
  constructor
  · exact eq_of_nodeNames
  · rintro (⟨name, rfl, rfl⟩ | rfl)
    · rfl
    · exact Parallel.nodeNames_strings tag names

/-! ## One name -/

theorem name?_eq_some_iff {a : Argument} {name : String} :
    a.name? = some name ↔ a.normalize tag = .ok (.string name) := by
  constructor
  · intro h
    cases a with
    | literal value =>
      cases value <;> cases h
      rfl
    | node e =>
      rw [Expr.string?_eq_some h]
      rfl
    | _ => cases h
  · exact fun h => string?_of_normalize h rfl

theorem name?_eq_none_iff {a : Argument} :
    a.name? = none ↔ ∀ name, a.normalize tag ≠ .ok (.string name) := by
  simp only [Option.eq_none_iff_forall_ne_some, ne_eq, @name?_eq_some_iff tag]

/-- The error of an argument that does not declare what it should. -/
def bindingError (tag : String) : Argument → BuildError
  | .failed error => error
  | a => .invalidBinding tag a.typeName

theorem declaredName_eq (a : Argument) :
    a.declaredName tag = a.name?.elim (.error (a.bindingError tag)) .ok := by
  cases a with
  | literal value => cases value <;> rfl
  | node e =>
    rw [declaredName, name?]
    cases e.string? <;> rfl
  | _ => rfl

theorem declaredName_ok_iff {a : Argument} {name : String} :
    a.declaredName tag = .ok name ↔ a.normalize tag = .ok (.string name) := by
  rw [declaredName_eq, ← name?_eq_some_iff]
  cases a.name? <;> simp

theorem declaredName_error_iff {a : Argument} {error : BuildError} :
    a.declaredName tag = .error error ↔
      (∀ name, a.normalize tag ≠ .ok (.string name)) ∧ error = a.bindingError tag := by
  rw [declaredName_eq, ← name?_eq_none_iff]
  cases a.name? <;> simp [eq_comm]

/-! ## The binding -/

theorem normalizeItems_strings_iff {items : List Argument} {names : List String} :
    normalizeItems tag items = .ok (names.map Expr.string) ↔
      items.mapM (declaredName tag) = .ok names := by
  rw [normalizeItems_ok_iff, mapM_ok_iff, List.forall₂_map_right_iff]
  simp only [declaredName_ok_iff]

theorem bindingNames_array_ok_iff {items : List Argument} {e : Expr} {names : List String} :
    (Argument.array items).bindingNames tag = .ok (e, names) ↔
      (Argument.array items).normalize tag = .ok e ∧ e.Lists names := by
  constructor
  · intro h
    obtain ⟨found, hfound, h⟩ := bind_ok h
    cases h
    refine ⟨?_, .inr rfl⟩
    rw [normalize, normalizeItems_strings_iff.2 hfound]
    rfl
  · rintro ⟨h, hlists⟩
    obtain ⟨es, hitems, rfl⟩ := normalize_array_ok h
    rcases hlists with ⟨name, hname, -⟩ | harray
    · cases hname
    · cases harray
      rw [bindingNames, normalizeItems_strings_iff.1 hitems]
      rfl

/-- The binding is the node of the argument, however much of it was built before. -/
theorem bindingNames_ok_iff {a : Argument} {e : Expr} {names : List String} :
    a.bindingNames tag = .ok (e, names) ↔ a.normalize tag = .ok e ∧ e.Lists names := by
  cases a with
  | literal value =>
    constructor
    · intro h
      cases value <;> cases h
      exact ⟨rfl, .inl ⟨_, rfl, rfl⟩⟩
    · rintro ⟨h, ⟨name, hname, rfl⟩ | harray⟩
      · cases h
        cases hname
        rfl
      · cases h
        cases harray
  | array items => exact bindingNames_array_ok_iff
  | node e' =>
    constructor
    · intro h
      obtain ⟨found, hfound, h⟩ := bind_ok h
      cases h
      exact ⟨rfl, nodeNames_ok_iff.1 hfound⟩
    · rintro ⟨h, hlists⟩
      cases h
      rw [bindingNames, nodeNames_ok_iff.2 hlists]
      rfl
  | object fields =>
    constructor
    · intro h
      cases h
    · rintro ⟨h, hlists⟩
      obtain ⟨nodes, -, rfl⟩ := normalize_object_ok h
      rcases hlists with ⟨name, hname, -⟩ | harray
      · cases hname
      · cases harray
  | _ =>
    constructor
    · intro h
      cases h
    · rintro ⟨h, -⟩
      cases h

/-! ## Errors -/

/-- The second argument is what first keeps the first one from being a name or a list of names: an
element, or the whole. -/
inductive Misfit (tag : String) : Argument → Argument → Prop
  | element {before : List Argument} {a : Argument} {after : List Argument} :
      (∀ b ∈ before, ∃ name, b.normalize tag = .ok (.string name)) →
      (∀ name, a.normalize tag ≠ .ok (.string name)) → Misfit tag (.array (before ++ a :: after)) a
  | whole {a : Argument} : (∀ items, a ≠ .array items) →
      (∀ e names, a.normalize tag = .ok e → ¬e.Lists names) → Misfit tag a a

theorem bindingNames_array_error_iff {items : List Argument} {error : BuildError} :
    (Argument.array items).bindingNames tag = .error error ↔
      ∃ before a after, items = before ++ a :: after ∧
        (∀ b ∈ before, ∃ name, b.normalize tag = .ok (.string name)) ∧
        (∀ name, a.normalize tag ≠ .ok (.string name)) ∧ error = a.bindingError tag := by
  rw [bindingNames, map_error_iff, mapM_error_iff]
  simp only [declaredName_ok_iff, declaredName_error_iff]

theorem nodeNames_error_eq {e : Expr} {error : BuildError} (h : nodeNames tag e = .error error) :
    error = .invalidBinding tag "expression" := by
  cases e with
  | literal value => cases value <;> cases h <;> rfl
  | array items =>
    obtain ⟨item, -, h⟩ := mapM_error h
    split at h <;> cases h
    rfl
  | _ =>
    cases h
    rfl

theorem bindingNames_error_eq {a : Argument} (ha : ∀ items, a ≠ .array items) {error : BuildError}
    (h : a.bindingNames tag = .error error) : error = a.bindingError tag := by
  cases a with
  | literal value => cases value <;> cases h <;> rfl
  | array items => exact absurd rfl (ha items)
  | node e =>
    rcases bind_error h with hnames | ⟨names, -, h⟩
    · exact nodeNames_error_eq hnames
    · cases h
  | _ =>
    cases h
    rfl

/-- An argument declares names if and only if its node is a name or a list of names. The binding is
this node, and the names are those in it, in their order. Otherwise what first keeps it from that
decides the error: its own error if it failed before, else one with the tag. -/
theorem bindingNames_decided (tag : String) (a : Argument) :
    (∀ e names, a.bindingNames tag = .ok (e, names) ↔ a.normalize tag = .ok e ∧ e.Lists names) ∧
    ∀ error, a.bindingNames tag = .error error ↔
      ∃ part, Misfit tag a part ∧ error = part.bindingError tag := by
  refine ⟨fun e names => bindingNames_ok_iff, fun error => ?_⟩
  constructor
  · intro h
    -- Elements decide only in a list that is not built yet.
    by_cases harray : ∃ items, a = .array items
    · obtain ⟨items, rfl⟩ := harray
      obtain ⟨before, part, after, rfl, hbefore, hpart, herror⟩ := bindingNames_array_error_iff.1 h
      exact ⟨part, .element hbefore hpart, herror⟩
    · have hwhole : ∀ items, a ≠ .array items := fun items ha => harray ⟨items, ha⟩
      refine ⟨a, .whole hwhole fun e names he hlists => ?_, bindingNames_error_eq hwhole h⟩
      cases (bindingNames_ok_iff.2 ⟨he, hlists⟩).symm.trans h
  · rintro ⟨part, hmisfit, rfl⟩
    cases hmisfit with
    | element hbefore hpart =>
      exact bindingNames_array_error_iff.2 ⟨_, _, _, rfl, hbefore, hpart, rfl⟩
    | whole hwhole hunlisted =>
      cases hresult : a.bindingNames tag with
      | ok found =>
        obtain ⟨he, hlists⟩ := bindingNames_ok_iff.1 hresult
        exact absurd hlists (hunlisted _ _ he)
      | error error => rw [bindingNames_error_eq hwhole hresult]

end Argument

end QueryTree

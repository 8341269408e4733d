import QueryTree.Proofs.Names

/-!
# Free names

A node resolves alike in scopes that have its free names at the same places. In a scope, the names
that stay free are those that are free and not declared there.
-/

namespace QueryTree

namespace Expr

theorem position_append_of_mem {x : String} {names : List String} (h : x ∈ names)
    (scope : List String) : position x (names ++ scope) = position x names := by
  induction names with
  | nil => cases h
  | cons name rest ih =>
    rw [List.cons_append, position, position]
    by_cases hname : x = name
    · rw [if_pos hname, if_pos hname]
    · rw [if_neg hname, if_neg hname, ih ((List.mem_cons.1 h).resolve_left hname)]

theorem position_append_of_not_mem {x : String} {names : List String} (h : x ∉ names)
    (scope : List String) :
    position x (names ++ scope) = (position x scope).map (· + names.length) := by
  induction names with
  | nil => simp
  | cons name rest ih =>
    rw [List.mem_cons, not_or] at h
    rw [List.cons_append, position, if_neg h.1, ih h.2, Option.map_map]
    rfl

theorem position_eq_none {x : String} {names : List String} :
    position x names = none ↔ x ∉ names := by
  induction names with
  | nil => simp [position]
  | cons name rest ih =>
    rw [position, List.mem_cons, not_or]
    by_cases hname : x = name
    · simp [hname]
    · simp [hname, ih]

/-! ## Variables of a resolved node -/

theorem mem_referred_operation {x tag : String} {operand : Expr} {fields : List (String × Expr)} :
    x ∈ (operation tag operand fields).referred ↔ x ∈ (operation tag operand fields).refers ∨
      x ∈ operand.referred ∨ x ∈ (subtermsFields fields).flatMap refers := by
  rw [referred, subterms, List.flatMap_cons, List.mem_append, List.flatMap_append,
    List.mem_append]
  rfl

theorem mem_referred_cons {x : String} {e : Expr} {rest : List Expr} :
    x ∈ (subtermsItems (e :: rest)).flatMap refers ↔
      x ∈ e.referred ∨ x ∈ (subtermsItems rest).flatMap refers := by
  rw [subtermsItems, List.flatMap_append, List.mem_append, referred]

theorem mem_referred_field {x name : String} {e : Expr} {rest : List (String × Expr)} :
    x ∈ (subtermsFields ((name, e) :: rest)).flatMap refers ↔
      x ∈ e.referred ∨ x ∈ (subtermsFields rest).flatMap refers := by
  rw [subtermsFields, List.flatMap_append, List.mem_append, referred]

@[simp] theorem string?_marks (n : Nat) : (marks n).string? = none := rfl

theorem referred_marks (n : Nat) : (marks n).referred = [] := by
  apply List.flatMap_eq_nil_iff.2
  intro s hs
  rw [marks, subterms, List.mem_cons, mem_subtermsItems] at hs
  rcases hs with rfl | ⟨e, he, hs⟩
  · rfl
  · obtain rfl := List.eq_of_mem_replicate he
    obtain rfl := List.mem_singleton.1 hs
    rfl

theorem string?_resolved (scope : List String) (e : Expr) :
    (e.resolved scope).string? = e.string? := by
  cases e <;> rfl

/-- The operand of a variable keeps its name in a scope that does not declare it. -/
theorem reference?_eq_none {scope : List String} {operand : Expr} :
    reference? scope operand = none ↔ ∀ x, operand.string? = some x → x ∉ scope := by
  cases hstring : operand.string? with
  | none => simp [reference?, hstring]
  | some x => simp [reference?, hstring, position_eq_none]

theorem eq_marks_of_reference? {scope : List String} {operand place : Expr}
    (h : reference? scope operand = some place) : ∃ i, place = marks i := by
  obtain ⟨i, -, rfl⟩ := Option.map_eq_some_iff.1 h
  exact ⟨i, rfl⟩

/-- A name that is not declared where a scope goes on either. -/
theorem reference?_eq_none_append {inner scope : List String} {operand : Expr}
    (h : reference? (inner ++ scope) operand = none) :
    reference? inner operand = none ∧ ∀ x, operand.string? = some x → x ∉ scope := by
  rw [reference?_eq_none] at h ⊢
  refine ⟨fun x hx hmem => h x hx (List.mem_append_left _ hmem), fun x hx hmem => ?_⟩
  exact h x hx (List.mem_append_right _ hmem)

theorem reference?_append_of_some {inner : List String} {operand place : Expr}
    (h : reference? inner operand = some place) (scope : List String) :
    reference? (inner ++ scope) operand = some place := by
  cases hstring : operand.string? with
  | none => simp [reference?, hstring] at h
  | some x =>
    by_cases hx : x ∈ inner
    · simpa [reference?, hstring, position_append_of_mem hx] using h
    · simp [reference?, hstring, position_eq_none.2 hx] at h

theorem reference?_append_of_none {inner scope scope' : List String} {operand : Expr}
    (hnone : reference? inner operand = none)
    (h : ∀ x, operand.string? = some x → position x scope = position x scope') :
    reference? (inner ++ scope) operand = reference? (inner ++ scope') operand := by
  cases hstring : operand.string? with
  | none => simp [reference?, hstring]
  | some x =>
    have hx := reference?_eq_none.1 hnone x hstring
    simp [reference?, hstring, position_append_of_not_mem hx, h x hstring]

/-! ## Scopes that go on -/

mutual

/-- Free names at the same places of two scopes. -/
theorem resolved_append {scope scope' : List String} : ∀ (e : Expr) (inner : List String),
    (∀ x ∈ (e.resolved inner).referred, position x scope = position x scope') →
      e.resolved (inner ++ scope) = e.resolved (inner ++ scope')
  | .literal _, _, _ => rfl
  | .array items, inner, h => congrArg Expr.array
      (resolvedItems_append items inner h)
  | .object fields, inner, h => congrArg Expr.object
      (resolvedFields_append fields inner h)
  | .binding name value, inner, h => congrArg (Expr.binding name)
      (resolved_append value inner h)
  | .operation tag operand fields, inner, h => by
    have hfields := resolvedFields_append fields ((binds tag operand).reverse ++ inner)
      fun x hx => h x (mem_referred_operation.2 (.inr (.inr hx)))
    rw [List.append_assoc, List.append_assoc] at hfields
    simp only [resolved, hfields]
    by_cases hvar : tag = "var"
    · subst hvar
      cases hreference : reference? inner operand with
      | some place =>
        simp [reference?_append_of_some hreference]
      | none =>
        have hoperand : operand.resolved (inner ++ scope) = operand.resolved (inner ++ scope') := by
          refine resolved_append operand inner fun x hx => h x ?_
          refine mem_referred_operation.2 (.inr (.inl ?_))
          simpa [hreference] using hx
        have hplace : reference? (inner ++ scope) operand =
            reference? (inner ++ scope') operand := by
          refine reference?_append_of_none hreference fun x hx => h x ?_
          refine mem_referred_operation.2 (.inl ?_)
          simp [refers, hreference, string?_resolved, hx]
        rw [hplace, hoperand]
    · rw [if_neg hvar, if_neg hvar]
      by_cases hlambda : tag = "lambda"
      · rw [if_pos hlambda, if_pos hlambda]
      · rw [if_neg hlambda, if_neg hlambda, resolved_append operand inner fun x hx => ?_]
        refine h x (mem_referred_operation.2 (.inr (.inl ?_)))
        simpa [hvar, hlambda] using hx

theorem resolvedItems_append {scope scope' : List String} :
    ∀ (items : List Expr) (inner : List String),
      (∀ x ∈ (subtermsItems (resolvedItems inner items)).flatMap refers,
        position x scope = position x scope') →
      resolvedItems (inner ++ scope) items = resolvedItems (inner ++ scope') items
  | [], _, _ => rfl
  | e :: rest, inner, h => by
    have he := resolved_append e inner fun x hx => h x (mem_referred_cons.2 (.inl hx))
    have hrest := resolvedItems_append rest (e.declared ++ inner)
      fun x hx => h x (mem_referred_cons.2 (.inr hx))
    rw [List.append_assoc, List.append_assoc] at hrest
    rw [resolvedItems, resolvedItems, he, hrest]

theorem resolvedFields_append {scope scope' : List String} :
    ∀ (fields : List (String × Expr)) (inner : List String),
      (∀ x ∈ (subtermsFields (resolvedFields inner fields)).flatMap refers,
        position x scope = position x scope') →
      resolvedFields (inner ++ scope) fields = resolvedFields (inner ++ scope') fields
  | [], _, _ => rfl
  | (name, e) :: rest, inner, h => by
    have he := resolved_append e inner fun x hx => h x (mem_referred_field.2 (.inl hx))
    have hrest := resolvedFields_append rest inner
      fun x hx => h x (mem_referred_field.2 (.inr hx))
    rw [resolvedFields, resolvedFields, he, hrest]

end

mutual

/-- What is free in a scope that goes on is free, and not declared where it goes on. -/
theorem referred_append {scope : List String} {x : String} : ∀ (e : Expr) (inner : List String),
    x ∈ (e.resolved (inner ++ scope)).referred → x ∈ (e.resolved inner).referred ∧ x ∉ scope
  | .literal _, _, h => nomatch h
  | .array items, inner, h => referredItems_append items inner h
  | .object fields, inner, h => referredFields_append fields inner h
  | .binding _ value, inner, h => referred_append value inner h
  | .operation tag operand fields, inner, h => by
    simp only [resolved, ← List.append_assoc] at h ⊢
    rw [mem_referred_operation] at h ⊢
    rcases h with h | h | h
    · by_cases hvar : tag = "var"
      · subst hvar
        cases hreference : reference? (inner ++ scope) operand with
        | some place =>
          obtain ⟨i, rfl⟩ := eq_marks_of_reference? hreference
          simp [refers, hreference] at h
        | none =>
          obtain ⟨hnone, hnot⟩ := reference?_eq_none_append hreference
          have hx : operand.string? = some x := by
            simpa [refers, hreference, string?_resolved] using h
          refine ⟨.inl ?_, hnot x hx⟩
          simp [refers, hnone, string?_resolved, hx]
      · simp [refers, if_neg hvar] at h
    · by_cases hvar : tag = "var"
      · subst hvar
        cases hreference : reference? (inner ++ scope) operand with
        | some place =>
          obtain ⟨i, rfl⟩ := eq_marks_of_reference? hreference
          simp [hreference, referred_marks] at h
        | none =>
          have hnone := (reference?_eq_none_append hreference).1
          simp only [if_true, hreference, hnone, Option.getD_none] at h ⊢
          exact (referred_append operand inner h).imp (.inr ∘ .inl) id
      · by_cases hlambda : tag = "lambda"
        · simp [if_neg hvar, if_pos hlambda, referred_marks] at h
        · simp only [if_neg hvar, if_neg hlambda] at h ⊢
          exact (referred_append operand inner h).imp (.inr ∘ .inl) id
    · exact (referredFields_append fields _ h).imp (.inr ∘ .inr) id

theorem referredItems_append {scope : List String} {x : String} :
    ∀ (items : List Expr) (inner : List String),
      x ∈ (subtermsItems (resolvedItems (inner ++ scope) items)).flatMap refers →
      x ∈ (subtermsItems (resolvedItems inner items)).flatMap refers ∧ x ∉ scope
  | [], _, h => nomatch h
  | e :: rest, inner, h => by
    simp only [resolvedItems, ← List.append_assoc] at h ⊢
    rw [mem_referred_cons] at h ⊢
    rcases h with h | h
    · exact (referred_append e inner h).imp .inl id
    · exact (referredItems_append rest _ h).imp .inr id

theorem referredFields_append {scope : List String} {x : String} :
    ∀ (fields : List (String × Expr)) (inner : List String),
      x ∈ (subtermsFields (resolvedFields (inner ++ scope) fields)).flatMap refers →
      x ∈ (subtermsFields (resolvedFields inner fields)).flatMap refers ∧ x ∉ scope
  | [], _, h => nomatch h
  | (_, e) :: rest, inner, h => by
    simp only [resolvedFields] at h ⊢
    rw [mem_referred_field] at h ⊢
    rcases h with h | h
    · exact (referred_append e inner h).imp .inl id
    · exact (referredFields_append rest inner h).imp .inr id

end

theorem resolved_congr {e : Expr} {scope scope' : List String}
    (h : ∀ x ∈ e.free, position x scope = position x scope') :
    e.resolved scope = e.resolved scope' := resolved_append e [] h

theorem free_of_mem_referred {e : Expr} {scope : List String} {x : String}
    (h : x ∈ (e.resolved scope).referred) : x ∈ e.free ∧ x ∉ scope := referred_append e [] h

end Expr

end QueryTree

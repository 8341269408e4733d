import QueryTree.Proofs.Conforming

/-!
# Properties of all nodes

What holds of every single node that builders make holds everywhere in what terms build, also where
accessors take nodes out. So the names in a node are distinct, and those of an object literal
ascend.
-/

namespace QueryTree

open QueryTree.Expr

/-! ## Induction -/

namespace Expr

/-- What goes over from the parts of a node to the node, if each single node has a property. -/
structure Inherits (Q motive : Expr → Prop) : Prop where
  literal : ∀ value, Q (.literal value) → motive (.literal value)
  array : ∀ items, Q (.array items) → (∀ e ∈ items, motive e) → motive (.array items)
  object : ∀ fields, Q (.object fields) → (∀ p ∈ fields, motive p.2) → motive (.object fields)
  binding : ∀ name value, Q (.binding name value) → motive value → motive (.binding name value)
  operation : ∀ tag operand fields, Q (.operation tag operand fields) → motive operand →
    (∀ p ∈ fields, motive p.2) → motive (.operation tag operand fields)

variable {Q motive : Expr → Prop}

mutual

/-- Induction on a node in which each single node has a property. -/
theorem Inherits.holds (h : Inherits Q motive) : ∀ e : Expr, e.Everywhere Q → motive e
  | .literal value, he => h.literal value (he _ List.mem_cons_self)
  | .array items, he => by
    apply h.array items (he _ List.mem_cons_self)
    apply h.holds_items items
    intro e hmem s hs
    exact he s (List.mem_cons_of_mem _ (mem_subtermsItems.2 ⟨e, hmem, hs⟩))
  | .object fields, he => by
    apply h.object fields (he _ List.mem_cons_self)
    apply h.holds_fields fields
    intro p hp s hs
    exact he s (List.mem_cons_of_mem _ (mem_subtermsFields.2 ⟨p, hp, hs⟩))
  | .binding name value, he => by
    apply h.binding name value (he _ List.mem_cons_self)
    apply h.holds value
    exact fun s hs => he s (List.mem_cons_of_mem _ hs)
  | .operation tag operand fields, he => by
    apply h.operation tag operand fields (he _ List.mem_cons_self)
    · apply h.holds operand
      exact fun s hs => he s (List.mem_cons_of_mem _ (List.mem_append_left _ hs))
    · apply h.holds_fields fields
      intro p hp s hs
      have hmem := List.mem_append_right operand.subterms (mem_subtermsFields.2 ⟨p, hp, hs⟩)
      exact he s (List.mem_cons_of_mem _ hmem)

theorem Inherits.holds_items (h : Inherits Q motive) : ∀ items : List Expr,
    (∀ e ∈ items, e.Everywhere Q) → ∀ e ∈ items, motive e
  | [], _ => List.forall_mem_nil _
  | e :: rest, hall => by
    obtain ⟨he, hrest⟩ := List.forall_mem_cons.1 hall
    exact List.forall_mem_cons.2 ⟨h.holds e he, h.holds_items rest hrest⟩

theorem Inherits.holds_fields (h : Inherits Q motive) : ∀ fields : List (String × Expr),
    (∀ p ∈ fields, p.2.Everywhere Q) → ∀ p ∈ fields, motive p.2
  | [], _ => List.forall_mem_nil _
  | (name, e) :: rest, hall => by
    obtain ⟨he, hrest⟩ := List.forall_mem_cons.1 hall
    exact List.forall_mem_cons.2 ⟨h.holds e he, h.holds_fields rest hrest⟩

end

end Expr

/-! ## Nodes that builders make -/

/-- A property of single nodes that builders make. -/
structure Expr.Made (Q : Expr → Prop) : Prop where
  literal : ∀ value, Q (.literal value)
  array : ∀ items, Q (.array items)
  binding : ∀ name value, Q (.binding name value)
  object : ∀ fields, Fields.Ascending fields → Q (.object fields)
  leaf : ∀ tag text, tag ∈ leafTags → Q (.operation tag (.string text) [])
  operation : ∀ {entry : Entry} {form : Form} {position slots} operand {fields},
    entry ∈ Catalog.entries → entry.form? = some form → form.layout? = some (position, slots) →
    position.Holds operand → Fill slots fields → Q (.operation entry.tag operand fields)
  letIn : ∀ values body, Q (.operation "let" values [("in", body)])
  lambda : ∀ parameters body, Q (lambdaNode parameters body)

namespace Parallel

variable {Q : Expr → Prop}

theorem made_array (harray : ∀ items, Q (.array items)) (es : List (Unit → Expr))
    (hes : ∀ e ∈ es, (e ()).Everywhere Q) : (Expr.array (es.map (· ()))).Everywhere Q := by
  apply everywhere_array (harray _)
  intro e he
  obtain ⟨e', he', rfl⟩ := List.mem_map.1 he
  exact hes e' he'

theorem made_fields {fields : List (String × (Unit → Expr))}
    (h : ∀ p ∈ fields, (p.2 ()).Everywhere Q) :
    ∀ p ∈ fields.map fun p => (p.1, p.2 ()), p.2.Everywhere Q := by
  intro p hp
  obtain ⟨p', hp', rfl⟩ := List.mem_map.1 hp
  exact h p' hp'

theorem made_leaf (hliteral : ∀ value, Q (.literal value))
    (hleaf : ∀ tag text, tag ∈ leafTags → Q (.operation tag (.string text) [])) (value : Leaf) :
    value.node.Everywhere Q := by
  have hmarker : ∀ tag text, tag ∈ leafTags →
      (Expr.operation tag (.string text) []).Everywhere Q := by
    intro tag text htag
    have htext : (Expr.string text).Everywhere Q := everywhere_literal (hliteral _)
    exact everywhere_operation (hleaf tag text htag) htext (List.forall_mem_nil _)
  cases value with
  | bytes data => exact everywhere_literal (hliteral _)
  | _ => exact hmarker _ _ (by simp [leafTags])

theorem made_lambda (h : Made Q) {parameters body : Expr} (hparameters : parameters.Everywhere Q)
    (hbody : body.Everywhere Q) : (lambdaNode parameters body).Everywhere Q := by
  apply everywhere_operation (h.lambda parameters body) hparameters
  simpa using hbody

/-- One run, in whose nodes the property holds everywhere. -/
def holding (h : Made Q) : ByDepth Unit where
  apart _ := 0
  Named _ := True
  Node e := (e ()).Everywhere Q
  string_eq _ _ _ := rfl
  names_eq _ _ _ _ := rfl
  node_literal value := everywhere_literal (h.literal value)
  node_array := made_array h.array
  node_object fields hascending hfields := by
    refine everywhere_object (h.object _ ?_) (made_fields hfields)
    simpa [Fields.Ascending, Fields.names, Function.comp_def] using hascending
  node_leaf value _ := made_leaf h.literal h.leaf value
  node_operation hentry hform hlayout hfits hfilled :=
    everywhere_operation
      (h.operation _ hentry hform hlayout (hfits.holds ()) (hfilled.toFill ()))
      (hfits.node (made_array h.array)) (made_fields (hfilled.node (made_array h.array)))
  node_let values body _ hvalues hbody := by
    apply everywhere_operation (h.letIn _ _)
    · refine everywhere_array (h.array _) fun e he => ?_
      obtain ⟨p, hp, rfl⟩ := List.mem_map.1 he
      exact everywhere_binding (h.binding _ _) (hvalues p hp)
    · simpa using hbody
  node_lambda hparameters _ _ hbody := made_lambda h hparameters hbody
  node_variable _ := made_leaf h.literal h.leaf (.variable _)
  node_reified _ _ _ hbody :=
    made_lambda h (everywhere_parameterNode h.literal h.array _) hbody

end Parallel

/-- What builders make has the property everywhere. -/
theorem Obtainable.everywhere {Q : Expr → Prop} (hmade : Made Q) {e : Expr} (h : Obtainable e) :
    e.Everywhere Q := by
  induction h with
  | @build term env bound e atEnd _ _ hbuild hnode hnodes =>
    have haccess : (Parallel.holding hmade).parallel.Accessible :=
      Parallel.accessible_of_everywhere fun _ _ => Iff.rfl
    obtain ⟨_, he⟩ := Parallel.node_of_build (P := (Parallel.holding hmade).parallel) (w := bound)
      rfl (fun _ => trivial) hnode hnodes
      (fun _ path _ => haccess.follows path)
      (Program.uses_of_free term (fun _ => trivial) fun _ => trivial) hbuild
    exact he

/-! ## Distinct names -/

/-- The names in a node are distinct, and those of an object literal ascend. -/
def Expr.Distinct : Expr → Prop
  | .object fields => Fields.Ascending fields
  | .operation tag _ fields => (tag :: Fields.names fields).Nodup
  | _ => True

theorem made_distinct : Made Distinct where
  literal _ := trivial
  array _ := trivial
  binding _ _ := trivial
  object _ h := h
  leaf tag _ _ := List.nodup_singleton tag
  operation _ _ hentry hform hlayout _ hfill := names_nodup hentry hform hlayout hfill
  letIn _ _ := by simp [Distinct]
  lambda _ _ := by simp [lambdaNode, Distinct]

theorem Obtainable.distinct {e : Expr} (h : Obtainable e) : e.Everywhere Distinct :=
  h.everywhere made_distinct

end QueryTree

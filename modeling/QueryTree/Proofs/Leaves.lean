import QueryTree.Check
import QueryTree.Proofs.Keyed
import QueryTree.Proofs.Prebuilt

/-!
# The leaves of an argument

A value has a node if none of its leaves is a function or a failed argument; otherwise the first
such leaf decides the error, whatever comes after it. Functions are refused without being called.
The node has the lists of the argument in their places, element by element, and the nodes in it
unchanged. Only the pairs of a container whose name comes again leave no trace.
-/

namespace QueryTree

namespace Argument

/-! ## Leaves -/

mutual

/-- What stands in an argument below its lists and keyed containers, depth-first and from left to
right. Pairs stand in the order they are given, also those that a later pair replaces. -/
def leaves : Argument → List Argument
  | .array items => leavesItems items
  | .object fields => leavesFields fields
  | a => [a]

def leavesItems : List Argument → List Argument
  | [] => []
  | a :: rest => leaves a ++ leavesItems rest

def leavesFields : List (String × Argument) → List Argument
  | [] => []
  | (_, a) :: rest => leaves a ++ leavesFields rest

end

/-- Why a leaf has no node in a value position. -/
def refusal? (tag : String) : Argument → Option BuildError
  | .function .. => some (.functionNotAllowed tag)
  | .failed error => some error
  | _ => none

theorem refusal?_eq_none (tag : String) {a : Argument} :
    a.refusal? tag = none ↔ a.arity? = none ∧ ∀ error, a ≠ .failed error := by
  cases a <;> simp [refusal?, arity?]

/-- The error of a result, if it is one. -/
def error? {α : Type} : Except BuildError α → Option BuildError
  | .ok _ => none
  | .error error => some error

section

variable {α β : Type}

theorem error?_eq_some {x : Except BuildError α} {error : BuildError} :
    error? x = some error ↔ x = .error error := by
  cases x <;> simp [error?]

theorem error?_eq_none {x : Except BuildError α} : error? x = none ↔ ∃ a, x = .ok a := by
  cases x <;> simp [error?]

theorem error?_map (x : Except BuildError α) (g : α → β) :
    error? (do return g (← x)) = error? x := by
  cases x <;> rfl

/-- Of two parts the first one that fails decides. -/
theorem error?_map₂ {γ : Type} (x : Except BuildError α) (y : Except BuildError β)
    (g : α → β → γ) : error? (do return g (← x) (← y)) = (error? x).or (error? y) := by
  cases x with
  | ok a => exact error?_map y (g a)
  | error error => rfl

end

variable (tag : String)

mutual

/-- The error of an argument is that of its first leaf without a node. -/
theorem error?_normalize : ∀ a : Argument,
    error? (a.normalize tag) = a.leaves.findSome? (refusal? tag)
  | .literal _ => rfl
  | .array items => by
    rw [normalize, error?_map, error?_normalizeItems items, leaves]
  | .object fields => by
    rw [normalize, error?_map, error?_normalizeFields fields, leaves]
  | .node _ => rfl
  | .function .. => rfl
  | .failed _ => rfl

theorem error?_normalizeItems : ∀ items : List Argument,
    error? (normalizeItems tag items) = (leavesItems items).findSome? (refusal? tag)
  | [] => rfl
  | a :: rest => by
    rw [normalizeItems, error?_map₂, error?_normalize a, error?_normalizeItems rest, leavesItems,
      List.findSome?_append]

theorem error?_normalizeFields : ∀ fields : List (String × Argument),
    error? (normalizeFields tag fields) = (leavesFields fields).findSome? (refusal? tag)
  | [] => rfl
  | (name, a) :: rest => by
    rw [normalizeFields, error?_map₂ _ _ fun e fields => (name, e) :: fields, error?_normalize a,
      error?_normalizeFields rest, leavesFields, List.findSome?_append]

end

/-! ## Bodies of functions -/

/-- The arguments differ in the bodies of functions only. -/
inductive Rebodied : Argument → Argument → Prop
  | same (a : Argument) : Rebodied a a
  | function (arity : Nat) (body body' : List Expr → Build Argument) :
      Rebodied (.function arity body) (.function arity body')
  | array (items : List (Argument × Argument)) : (∀ p ∈ items, Rebodied p.1 p.2) →
      Rebodied (.array (items.map Prod.fst)) (.array (items.map Prod.snd))
  | object (fields : List (String × Argument × Argument)) : (∀ p ∈ fields, Rebodied p.2.1 p.2.2) →
      Rebodied (.object (fields.map fun p => (p.1, p.2.1)))
        (.object (fields.map fun p => (p.1, p.2.2)))

variable {tag}

theorem Rebodied.normalize_eq {a a' : Argument} (h : Rebodied a a') :
    a'.normalize tag = a.normalize tag := by
  induction h with
  | same a => rfl
  | function arity body body' => rfl
  | array items _ ih =>
    unfold normalize
    rw [normalizeItems_congr ih]
  | object fields _ ih =>
    unfold normalize
    rw [normalizeFields_congr ih]

/-! ## Parts -/

/-- The part of an argument at the end of a path. A key leads to the last pair that carries it. -/
def part? : List Expr.Step → Argument → Option Argument
  | [], a => some a
  | .element index :: path, .array items => items[index]? >>= part? path
  | .key name :: path, .object fields => Fields.last? name fields >>= part? path
  | _ :: _, _ => none

theorem normalizeItems_ok_iff {items : List Argument} {es : List Expr} :
    normalizeItems tag items = .ok es ↔
      List.Forall₂ (fun a e => a.normalize tag = .ok e) items es := by
  rw [normalizeItems_eq_mapM, mapM_ok_iff]

theorem normalize_element {items : List Argument} {es : List Expr}
    (h : normalizeItems tag items = .ok es) {index : Nat} {a : Argument}
    (ha : items[index]? = some a) : ∃ e, es[index]? = some e ∧ a.normalize tag = .ok e := by
  rw [normalizeItems_ok_iff, List.forall₂_iff_get] at h
  obtain ⟨hlength, heach⟩ := h
  obtain ⟨hindex, rfl⟩ := List.getElem?_eq_some_iff.1 ha
  exact ⟨es[index], List.getElem?_eq_getElem (hlength ▸ hindex),
    heach index hindex (hlength ▸ hindex)⟩

/-- The part at the end of a path has its node at the end of the same path. -/
theorem follow_part {a part : Argument} {e : Expr} {path : List Expr.Step}
    (h : a.normalize tag = .ok e) (hpart : a.part? path = some part) :
    ∃ node, e.follow? path = some node ∧ part.normalize tag = .ok node := by
  induction path generalizing a e with
  | nil =>
    cases hpart
    exact ⟨e, rfl, h⟩
  | cons step path ih =>
    cases a with
    | array items =>
      cases step with
      | element index =>
        obtain ⟨next, hnext, hpart⟩ := Option.bind_eq_some_iff.1 hpart
        obtain ⟨es, hitems, rfl⟩ := normalize_array_ok h
        obtain ⟨e, he, hnode⟩ := normalize_element hitems hnext
        obtain ⟨node, hfollow, hok⟩ := ih hnode hpart
        have hstep : (Expr.array es).step? (.element index) = some e := he
        refine ⟨node, ?_, hok⟩
        rw [Expr.follow?_cons, hstep]
        exact hfollow
      | _ => cases hpart
    | object fields =>
      cases step with
      | key name =>
        obtain ⟨next, hnext, hpart⟩ := Option.bind_eq_some_iff.1 hpart
        obtain ⟨nodes, hfields, rfl⟩ := normalize_object_ok h
        obtain ⟨e, he, hnode⟩ := normalize_key hfields hnext
        obtain ⟨node, hfollow, hok⟩ := ih hnode hpart
        have hstep : (Expr.object (Fields.sorted nodes)).step? (.key name) = some e := he
        refine ⟨node, ?_, hok⟩
        rw [Expr.follow?_cons, hstep]
        exact hfollow
      | _ => cases hpart
    | _ => cases step <;> cases hpart

/-- A value has a node if and only if no leaf of it is a function or a failed argument. Otherwise the
first such leaf decides the error, and the bodies of functions make no difference. Where a part of
the value stands that no later pair replaces, its node stands in the node of the value: a list has
as many elements, and a node is as it was. -/
theorem first_leaf_decides (tag : String) (a : Argument) :
    ((∃ e, a.normalize tag = .ok e) ↔
      ∀ leaf ∈ a.leaves, leaf.arity? = none ∧ ∀ error, leaf ≠ .failed error) ∧
    (∀ error, a.normalize tag = .error error ↔
      ∃ before leaf after, a.leaves = before ++ leaf :: after ∧
        (∀ l ∈ before, l.arity? = none ∧ ∀ error, l ≠ .failed error) ∧
        leaf.refusal? tag = some error) ∧
    (∀ a', a.Rebodied a' → a'.normalize tag = a.normalize tag) ∧
    ∀ e, a.normalize tag = .ok e → ∀ path part, a.part? path = some part →
      ∃ node, e.follow? path = some node ∧ part.normalize tag = .ok node ∧
        (∀ items, part = .array items → ∃ es, node = .array es ∧ es.length = items.length) ∧
        ∀ embedded, part = .node embedded → node = embedded := by
  simp only [← refusal?_eq_none tag]
  refine ⟨?_, ?_, fun a' h => h.normalize_eq, ?_⟩
  · rw [← error?_eq_none, error?_normalize, List.findSome?_eq_none_iff]
  · intro error
    rw [← error?_eq_some, error?_normalize, List.findSome?_eq_some_iff]
    constructor
    · rintro ⟨before, leaf, after, hleaves, hleaf, hbefore⟩
      exact ⟨before, leaf, after, hleaves, hbefore, hleaf⟩
    · rintro ⟨before, leaf, after, hleaves, hbefore, hleaf⟩
      exact ⟨before, leaf, after, hleaves, hleaf, hbefore⟩
  · intro e h path part hpart
    obtain ⟨node, hfollow, hnode⟩ := follow_part h hpart
    refine ⟨node, hfollow, hnode, ?_, ?_⟩
    · rintro items rfl
      obtain ⟨es, hitems, rfl⟩ := normalize_array_ok hnode
      exact ⟨es, rfl, (normalizeItems_ok_iff.1 hitems).length_eq.symm⟩
    · rintro embedded rfl
      cases hnode
      rfl

/-- A value with parts below two containers; and a list with a function that a later pair replaces,
before a failed argument. -/
theorem nested_first_leaf :
    let x : Expr := variableNode "x"
    let value : Argument := .object
      [("b", .array [.null, .array [.node x], .array []]), ("a", .node x), ("a", .null)]
    let missing : BuildError := .arity "add" 1 0
    let list : (List Expr → Build Argument) → Argument := fun body =>
      .array [value, .object [("a", .function 2 body), ("a", .null)], .failed missing]
    let throwing : List Expr → Build Argument := fun _ bound => .error (.thrown "called") bound
    let giving : List Expr → Build Argument := fun es bound => .ok (.array (es.map .node)) bound
    (∃ e es, value.normalize "create" = .ok e ∧ e.follow? [.key "b"] = some (.array es) ∧
      es.length = 3 ∧ e.follow? [.key "b", .element 1, .element 0] = some x) ∧
    (list throwing).normalize "create" = .error (.functionNotAllowed "create") ∧
    (list giving).normalize "create" = (list throwing).normalize "create" := by
  intro x value missing list throwing giving
  obtain ⟨hok, -, -, hparts⟩ := first_leaf_decides "create" value
  obtain ⟨-, herror, hbodies, -⟩ := first_leaf_decides "create" (list throwing)
  refine ⟨?_, ?_, ?_⟩
  · obtain ⟨e, he⟩ := hok.2 (by simp [value, leaves, leavesItems, leavesFields, null, arity?])
    obtain ⟨node, hnode, -, hlist, -⟩ := hparts e he [.key "b"] _ rfl
    obtain ⟨es, rfl, hlength⟩ := hlist _ rfl
    obtain ⟨inner, hinner, -, -, hunchanged⟩ :=
      hparts e he [.key "b", .element 1, .element 0] _ rfl
    exact ⟨e, es, he, hnode, hlength, hunchanged x rfl ▸ hinner⟩
  · refine (herror _).2 ⟨value.leaves, .function 2 throwing, [.null, .failed missing], rfl, ?_, rfl⟩
    simp [value, leaves, leavesItems, leavesFields, null, arity?]
  · have hfunction : (Argument.function 2 throwing).Rebodied (.function 2 giving) := .function ..
    have hpair : Rebodied (.object [("a", .function 2 throwing), ("a", .null)])
        (.object [("a", .function 2 giving), ("a", .null)]) := by
      refine .object [("a", .function 2 throwing, .function 2 giving), ("a", .null, .null)] ?_
      simp only [List.forall_mem_cons]
      exact ⟨hfunction, .same _, List.forall_mem_nil _⟩
    refine hbodies _ (.array [(value, value), (_, _), (.failed missing, .failed missing)] ?_)
    simp only [List.forall_mem_cons]
    exact ⟨.same _, hpair, .same _, List.forall_mem_nil _⟩

/-- The node of a pair that a later one replaces is a leaf, but stands nowhere in the result, where
the check finds no operation. -/
theorem replaced_node_lost :
    let x : Expr := variableNode "x"
    let a : Argument := .object [("a", .node x), ("a", .null)]
    .node x ∈ a.leaves ∧ ∃ e, a.normalize "build" = .ok e ∧ x ∉ e.subterms ∧
      (Check.document e.toDocument).operations = 0 := by
  refine ⟨List.mem_cons_self, _, rfl, ?_, rfl⟩
  simp [Fields.sorted, Fields.putSorted, Expr.subterms, Expr.subtermsFields, variableNode]

end Argument

end QueryTree

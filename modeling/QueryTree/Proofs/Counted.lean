import QueryTree.Proofs.Checked
import QueryTree.Proofs.Names

/-!
# Counting operations

The check counts the operations that it visits. In what builders give it visits all of them but one
kind: a list under the `lambda` of a merge is taken for the names of a lambda, and the operations in
it are overlooked. What is counted and what is overlooked add up to all operations of the node.
-/

namespace QueryTree

namespace Expr

/-- An operation that is no literal under a marker. -/
def isCounted : Expr → Bool
  | .operation tag .. => !(["@ref", "@ts", "@date"].contains tag)
  | _ => false

/-- The number of operations in a node, each as often as it occurs. -/
def operations (e : Expr) : Nat := e.subterms.countP isCounted

/-- A list that stands where the check expects the names of a lambda. -/
def isSkipped (tag name : String) (value : Expr) : Bool :=
  tag == "merge" && name == "lambda" && value.kind == .array

mutual

/-- The number of operations in lists that the check skips. -/
def overlooked : Expr → Nat
  | .literal _ => 0
  | .array items => overlookedItems items
  | .object fields => overlookedFields objectTag fields
  | .binding _ value => overlooked value
  | .operation tag operand fields => overlooked operand + overlookedFields tag fields

def overlookedItems : List Expr → Nat
  | [] => 0
  | e :: rest => overlooked e + overlookedItems rest

def overlookedFields (tag : String) : List (String × Expr) → Nat
  | [] => 0
  | (name, e) :: rest =>
    (if isSkipped tag name e then e.operations else overlooked e) + overlookedFields tag rest

end

/-! ## Operations of the parts -/

def operationsItems (items : List Expr) : Nat := (subtermsItems items).countP isCounted

def operationsFields (fields : List (String × Expr)) : Nat :=
  (subtermsFields fields).countP isCounted

@[simp] theorem operations_array (items : List Expr) :
    (array items).operations = operationsItems items :=
  List.countP_cons_of_neg (by simp [isCounted])

@[simp] theorem operations_object (fields : List (String × Expr)) :
    (object fields).operations = operationsFields fields :=
  List.countP_cons_of_neg (by simp [isCounted])

@[simp] theorem operations_binding (name : String) (value : Expr) :
    (binding name value).operations = value.operations :=
  List.countP_cons_of_neg (by simp [isCounted])

theorem operations_operation (tag : String) (operand : Expr) (fields : List (String × Expr)) :
    (operation tag operand fields).operations =
      operand.operations + operationsFields fields +
        if isCounted (operation tag operand fields) then 1 else 0 := by
  rw [operations, subterms, List.countP_cons, List.countP_append]
  rfl

@[simp] theorem operationsItems_cons (e : Expr) (rest : List Expr) :
    operationsItems (e :: rest) = e.operations + operationsItems rest := List.countP_append

@[simp] theorem operationsFields_cons (name : String) (e : Expr) (rest : List (String × Expr)) :
    operationsFields ((name, e) :: rest) = e.operations + operationsFields rest :=
  List.countP_append

mutual

/-- Overlooked operations are among all of them. -/
theorem overlooked_le_operations : ∀ e : Expr, e.overlooked ≤ e.operations
  | .literal _ => Nat.le_refl 0
  | .array items => by
    rw [overlooked, operations_array]
    exact overlookedItems_le_operations items
  | .object fields => by
    rw [overlooked, operations_object]
    exact overlookedFields_le_operations objectTag fields
  | .binding _ value => by
    rw [overlooked, operations_binding]
    exact overlooked_le_operations value
  | .operation tag operand fields => by
    rw [overlooked, operations_operation]
    have hoperand := overlooked_le_operations operand
    have hfields := overlookedFields_le_operations tag fields
    omega

theorem overlookedItems_le_operations : ∀ items : List Expr,
    overlookedItems items ≤ operationsItems items
  | [] => Nat.le_refl 0
  | e :: rest => by
    rw [overlookedItems, operationsItems_cons]
    exact Nat.add_le_add (overlooked_le_operations e) (overlookedItems_le_operations rest)

theorem overlookedFields_le_operations (tag : String) : ∀ fields : List (String × Expr),
    overlookedFields tag fields ≤ operationsFields fields
  | [] => Nat.le_refl 0
  | (name, e) :: rest => by
    rw [overlookedFields, operationsFields_cons]
    apply Nat.add_le_add _ (overlookedFields_le_operations tag rest)
    split
    · exact Nat.le_refl _
    · exact overlooked_le_operations e

end

theorem isSkipped_eq_false {tag : String} (h : tag ≠ "merge") (name : String) (value : Expr) :
    isSkipped tag name value = false := by
  simp [isSkipped, h]

/-- The wire form of a node that is no list and no scalar is an object. -/
theorem kind_of_not_isObject {e : Expr} (h : e.toDocument.isObject = false) :
    e.operations = 0 ∨ e.kind = .array := by
  cases e with
  | literal value => exact .inl rfl
  | array items => exact .inr rfl
  | object fields => cases h
  | binding name value => cases h
  | operation tag operand fields => cases h

end Expr

namespace Check

open QueryTree.Expr

/-- Walking the node counts its operations, less the overlooked ones. -/
def Counted (e : Expr) : Prop :=
  ∀ (path : String) (r : Report),
    (walk e.toDocument path r).operations + e.overlooked = r.operations + e.operations

theorem walkItems_operations {items : List Expr} (h : ∀ e ∈ items, Counted e) (index : Nat)
    (path : String) (r : Report) :
    (walkItems (items.map toDocument) index path r).operations + overlookedItems items =
      r.operations + operationsItems items := by
  induction items generalizing index r with
  | nil => rfl
  | cons e rest ih =>
    have hfirst := h e List.mem_cons_self (itemPath path index) r
    have hmore := ih (fun e he => h e (List.mem_cons_of_mem _ he)) (index + 1)
      (walk e.toDocument (itemPath path index) r)
    rw [List.map_cons, walkItems, overlookedItems, operationsItems_cons]
    omega

theorem walkValues_operations {tag : String} (htag : tag ≠ "merge")
    {fields : List (String × Expr)} (h : ∀ p ∈ fields, Counted p.2) (path : String) (r : Report) :
    (walkValues (fields.map fun p => (p.1, p.2.toDocument)) path r).operations +
      overlookedFields tag fields = r.operations + operationsFields fields := by
  induction fields generalizing r with
  | nil => rfl
  | cons field rest ih =>
    obtain ⟨name, e⟩ := field
    obtain ⟨he, hrest⟩ := List.forall_mem_cons.1 h
    have he : Counted e := he
    have hfirst := he (fieldPath path name) r
    have hmore := ih hrest (walk e.toDocument (fieldPath path name) r)
    simp only [List.map_cons]
    rw [walkValues, overlookedFields, isSkipped_eq_false htag, operationsFields_cons,
      if_neg Bool.false_ne_true]
    omega

/-- Of an entry named `lambda` that is skipped, either all operations are overlooked or there are
none. -/
theorem walkEntries_operations {tag : String} {fields : List (String × Expr)}
    (hlet : "let" ∉ fields.map Prod.fst)
    (hlambda : ∀ e, ("lambda", e) ∈ fields → tag = "merge" ∨ e.operations = 0)
    (h : ∀ p ∈ fields, Counted p.2) (path : String) (r : Report) :
    (walkEntries (fields.map fun p => (p.1, p.2.toDocument)) path r).operations +
      overlookedFields tag fields = r.operations + operationsFields fields := by
  induction fields generalizing r with
  | nil => rfl
  | cons field rest ih =>
    obtain ⟨name, e⟩ := field
    simp only [List.map_cons, List.mem_cons, not_or] at hlet
    have he : Counted e := h (name, e) List.mem_cons_self
    have hrest := ih hlet.2 (fun e he => hlambda e (List.mem_cons_of_mem _ he))
      fun p hp => h p (List.mem_cons_of_mem _ hp)
    simp only [List.map_cons]
    rw [walkEntries, overlookedFields, operationsFields_cons, if_neg (Ne.symm hlet.1)]
    by_cases hskip : name = "lambda" ∧ (!e.toDocument.isObject) = true
    · obtain ⟨rfl, hdocument⟩ := hskip
      rw [if_pos ⟨rfl, hdocument⟩]
      have hall : (if isSkipped tag "lambda" e then e.operations else e.overlooked) =
          e.operations := by
        by_cases hnone : e.operations = 0
        · have hle := overlooked_le_operations e
          split <;> omega
        · have hmerge := (hlambda e List.mem_cons_self).resolve_right hnone
          have hkind := (kind_of_not_isObject (by simpa using hdocument)).resolve_left hnone
          rw [if_pos (by simp [isSkipped, hmerge, hkind])]
      have hmore := hrest r
      omega
    · rw [if_neg hskip]
      have hvisited : isSkipped tag name e = false := by
        by_contra hskipped
        simp only [isSkipped, Bool.not_eq_false, Bool.and_eq_true, beq_iff_eq] at hskipped
        refine hskip ⟨hskipped.1.2, ?_⟩
        cases e with
        | array items => rfl
        | _ => cases hskipped.2
      rw [hvisited, if_neg Bool.false_ne_true]
      have hfirst := he (fieldPath path name) r
      have hmore := hrest (walk e.toDocument (fieldPath path name) r)
      omega

theorem walkBindingItems_operations {values : List (String × Expr)}
    (h : ∀ p ∈ values, Counted p.2) (index : Nat) (path : String) (r : Report) :
    (walkBindingItems (values.map fun p => .object [(p.1, p.2.toDocument)]) index path
        r).operations + overlookedItems (values.map fun p => .binding p.1 p.2) =
      r.operations + operationsItems (values.map fun p => .binding p.1 p.2) := by
  induction values generalizing index r with
  | nil => rfl
  | cons value rest ih =>
    obtain ⟨name, e⟩ := value
    have he : Counted e := h (name, e) List.mem_cons_self
    have hfirst := he (fieldPath (itemPath path index) name) r
    have hmore := ih (fun p hp => h p (List.mem_cons_of_mem _ hp)) (index + 1)
      (walk e.toDocument (fieldPath (itemPath path index) name) r)
    simp only [List.map_cons]
    rw [overlookedItems, overlooked, operationsItems_cons,
      operations_binding, walkBindingItems, walkValues, walkValues]
    omega

theorem checkOperands_operations (path : String) (fields : List (String × Document))
    (r : Report) : (checkOperands path fields r).operations = r.operations := by
  induction fields generalizing r with
  | nil => rfl
  | cons field rest ih =>
    rw [checkOperands, ih]
    split <;> rfl

/-! ## Nodes -/

theorem isSkipped_own (tag : String) (operand : Expr) : isSkipped tag tag operand = false := by
  by_cases htag : tag = "merge"
  · subst htag
    rfl
  · exact isSkipped_eq_false htag tag operand

theorem counted_operation {tag : String} {operand : Expr} {fields : List (String × Expr)}
    (hnodup : (tag :: fields.map Prod.fst).Nodup)
    (hshape : Shape.ofNames (tag :: fields.map Prod.fst) = .operation)
    (hcounted : isCounted (.operation tag operand fields) = true)
    (hlet : "let" ∉ tag :: fields.map Prod.fst)
    (hlambda : ∀ e, ("lambda", e) ∈ (tag, operand) :: fields → tag = "merge" ∨ e.operations = 0)
    (hoperand : Counted operand) (hfields : ∀ p ∈ fields, Counted p.2) :
    Counted (.operation tag operand fields) := by
  intro path r
  have hentries := walkEntries_operations
    (show "let" ∉ ((tag, operand) :: fields).map Prod.fst from hlet) hlambda
    (List.forall_mem_cons.2 ⟨hoperand, hfields⟩) path
    (checkOperands path (((tag, operand) :: fields).map fun p => (p.1, p.2.toDocument))
      r.countOperation)
  rw [checkOperands_operations, overlookedFields, operationsFields_cons, isSkipped_own,
    if_neg Bool.false_ne_true] at hentries
  rw [walk_operation hnodup hshape, overlooked, operations_operation, hcounted, if_pos rfl]
  simp only [Report.countOperation] at hentries ⊢
  omega

theorem counted_let {values : List (String × Expr)} {body : Expr}
    (hvalues : ∀ p ∈ values, Counted p.2) (hbody : Counted body) :
    Counted (.operation "let" (.array (values.map fun p => .binding p.1 p.2))
      [("in", body)]) := by
  intro path r
  rw [walk_let]
  generalize hchecked : checkOperands path _ r.countOperation = checked
  have hoperations : checked.operations = r.operations + 1 := by
    rw [← hchecked, checkOperands_operations]
    rfl
  have hlet := walkBindingItems_operations hvalues 0 (fieldPath path "let") checked
  have hin := @walkEntries_operations "let" [("in", body)] (by simp) (by simp)
    (by simpa using hbody) path (walkBindingItems
      (values.map fun p => .object [(p.1, p.2.toDocument)]) 0 (fieldPath path "let") checked)
  rw [overlooked, overlooked, operations_operation, operations_array,
    if_pos (show isCounted (.operation "let" _ _) = true from rfl)]
  omega

/-- The names that a lambda declares hold no operation. -/
theorem operations_of_nodeNames {tag : String} {parameters : Expr} {names : List String}
    (h : Argument.nodeNames tag parameters = .ok names) : parameters.operations = 0 := by
  have hstrings : ∀ names : List String, operationsItems (names.map Expr.string) = 0 := by
    intro names
    induction names with
    | nil => rfl
    | cons name rest ih => exact ih
  rcases Argument.eq_of_nodeNames h with ⟨name, rfl, -⟩ | rfl
  · rfl
  · rw [operations_array]
    exact hstrings names

theorem counted_leaf {tag : String} (htag : tag ∈ leafTags) (text : String) :
    Counted (.operation tag (.string text) []) := by
  by_cases hvar : tag = "var"
  · subst hvar
    refine counted_operation (by simp) (shape_binders (by simp) _) rfl (by simp) ?_ ?_ nofun
    · intro e he
      simp at he
    · intro path r
      rw [string, walk_literal]
      rfl
  · have hmarker : tag ∈ ["@ref", "@ts", "@date"] := by
      simp only [leafTags, List.mem_cons] at htag ⊢
      tauto
    intro path r
    rw [walk_marker (List.mem_of_mem_take (i := 3) hmarker)]
    have hcounted : isCounted (.operation tag (.string text) []) = false := by
      rw [isCounted, List.contains_eq_mem, decide_eq_true hmarker]
      rfl
    rw [operations_operation, hcounted]
    rfl

/-- The check counts all operations of a formed node, less those that it overlooks. -/
theorem counted_of_formed {e : Expr} (h : e.Formed) : Counted e := by
  induction h with
  | literal value =>
    intro path r
    rw [walk_literal]
    rfl
  | array _ ih =>
    intro path r
    rw [toDocument, toDocuments_eq_map, walk, overlooked, operations_array]
    exact walkItems_operations ih 0 path r
  | object hascending _ ih =>
    intro path r
    rw [walk_object hascending, overlooked, operations_object]
    exact walkValues_operations (by simp [objectTag]) ih _ r
  | leaf text htag => exact counted_leaf htag text
  | operation hentry hform hlayout _ hfill _ _ ihoperand ihfields =>
    rename_i entry form position slots operand fields _ _ _
    have hreserved := Catalog.layout_tag_not_reserved entry hentry (by simp [hform, hlayout])
    have hmem : ∀ p ∈ fields, p.1 ∈ entry.fieldNames := by
      intro p hp
      rw [Entry.fieldNames_of_form hform, Form.fieldNames_of_layout hlayout]
      exact hfill.names_sublist.subset (List.mem_map_of_mem hp)
    refine counted_operation (names_nodup hentry hform hlayout hfill)
      (shape_operation _ (Catalog.isKnownTag_tag hentry) hreserved) ?_
      (let_not_mem_names hentry hform hlayout hfill) ?_ ihoperand ihfields
    · simp only [Catalog.reservedTags, List.mem_cons, not_or] at hreserved
      simp [isCounted, hreserved]
    · intro e he
      rcases List.mem_cons.1 he with hown | he
      · injection hown with htag
        exact absurd (htag ▸ by simp [Catalog.reservedTags]) hreserved
      · exact .inl ((Catalog.consistent entry hentry).lambda_field (hmem _ he))
  | letIn _ _ ihvalues ihbody => exact counted_let ihvalues ihbody
  | lambda _ hnames _ ihparameters ihbody =>
    refine counted_operation (by simp) (shape_binders (by simp) _) rfl (by simp) ?_ ihparameters
      (by simpa using ihbody)
    intro e he
    simp only [List.mem_cons, Prod.mk.injEq, List.not_mem_nil, or_false] at he
    rcases he with ⟨-, rfl⟩ | ⟨hname, -⟩
    · exact .inr (operations_of_nodeNames hnames)
    · simp at hname

end Check

/-- The check of what builders give counts every operation but those in a list that is the `lambda`
of a merge. So the count is right exactly if such lists hold none. -/
theorem Obtained.operations_add_overlooked {e : Expr} (h : Obtained e) :
    (Check.document e.toDocument).operations + e.overlooked = e.operations := by
  have hcounted := Check.counted_of_formed h.formed "$" .empty
  rwa [Report.empty, Nat.zero_add] at hcounted

/-- The builder of merges. -/
def merge : Builder where
  entry := ⟨.sets, "merge", "merge", "merge(merge, with, lambda?)", false,
    some ⟨"merge", .operation .value [.required "with", .optionalLambda "lambda"]⟩⟩
  tag := "merge"
  form := .operation .value [.required "with", .optionalLambda "lambda"]
  listed := by simp [Catalog.entries, Catalog.setsEntries]
  recipe := rfl

/-- A merge of two numbers, with a list of one variable where conflicts are resolved. -/
def mergeOfList : Expr :=
  .operation "merge" (.literal (.integer 1))
    [("with", .literal (.integer 2)), ("lambda", .array [variableNode "x"])]

theorem obtained_mergeOfList : Obtained mergeOfList := by
  let term : Program := .call merge [(.field "merge", .literal (.integer 1)),
    (.field "with", .literal (.integer 2)), (.field "lambda", .list [.leaf (.variable "x")])]
  have hterm : term.Within .free :=
    ⟨trivial, nofun, nofun, trivial, nofun, nofun, ⟨trivial, trivial⟩, nofun, nofun, trivial⟩
  have hbuild : term.build .byDepth [] 0 = .ok mergeOfList 0 := rfl
  exact .of_build hterm hbuild

theorem mergeOfList_operations : Obtained mergeOfList ∧
    (Check.document mergeOfList.toDocument).operations + mergeOfList.overlooked =
      mergeOfList.operations :=
  ⟨obtained_mergeOfList, obtained_mergeOfList.operations_add_overlooked⟩

theorem list_of_merge_overlooked : ∃ e, Obtained e ∧
    (Check.document e.toDocument).operations ≠ e.operations :=
  ⟨mergeOfList, obtained_mergeOfList, by decide +kernel⟩

end QueryTree

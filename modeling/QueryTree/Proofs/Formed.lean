import QueryTree.Proofs.Parallel.Run
import QueryTree.Expr.Wire

/-!
# Formed nodes

The shapes of nodes that terms without accessors build: literals, arrays, object literals with
ascending names, leaves, operations of the catalog with the fields of their entry, lets of named
values, and lambdas that declare names. A node of such a term is formed if the nodes that the
term reads are.
-/

namespace QueryTree

/-- A list stands where a list of operands is taken. -/
def Position.Holds : Position → Expr → Prop
  | .items least, e => ∃ es, e = .array es ∧ least ≤ es.length
  | _, _ => True

/-- Fields that stand for slots in their order. -/
inductive Fill : List Slot → List (String × Expr) → Prop
  | nil : Fill [] []
  | skip {slot slots fields} : slot.optional = true → Fill slots fields →
      Fill (slot :: slots) fields
  | fill {slot slots fields e} : slot.position.Holds e → Fill slots fields →
      Fill (slot :: slots) ((slot.name, e) :: fields)

theorem Fill.names_sublist {slots : List Slot} {fields : List (String × Expr)}
    (h : Fill slots fields) : (fields.map Prod.fst).Sublist (slots.map Slot.name) := by
  induction h with
  | nil => exact .slnil
  | skip _ _ ih => exact ih.cons _
  | fill _ _ ih => exact ih.cons_cons _

section

variable {ι : Type} {Node : (ι → Expr) → Prop}

theorem Fits.holds {e : ι → Expr} {position : Position} (h : Fits Node e position) (i : ι) :
    position.Holds (e i) := by
  cases position with
  | items least =>
    obtain ⟨es, rfl, hleast, -⟩ := h
    exact ⟨es.map (· i), rfl, by simpa using hleast⟩
  | value => trivial
  | lambda => trivial

theorem Filled.toFill {slots : List Slot} {fields : List (String × (ι → Expr))}
    (h : Filled Node slots fields) (i : ι) : Fill slots (fields.map fun p => (p.1, p.2 i)) := by
  induction h with
  | nil => exact .nil
  | skip hoptional _ ih => exact .skip hoptional ih
  | fill hfits _ ih => exact .fill (hfits.holds i) ih

end

namespace Expr

/-- Tags of the leaves that hold a text. -/
def leafTags : List String := ["@ref", "@ts", "@date", "var"]

inductive Formed : Expr → Prop
  | literal (value : Literal) : Formed (.literal value)
  | array {items : List Expr} : (∀ e ∈ items, Formed e) → Formed (.array items)
  | object {fields : List (String × Expr)} : Fields.Ascending fields →
      (∀ p ∈ fields, Formed p.2) → Formed (.object fields)
  | leaf {tag : String} (text : String) : tag ∈ leafTags →
      Formed (.operation tag (.string text) [])
  | operation {entry : Entry} {form : Form} {position slots operand fields} :
      entry ∈ Catalog.entries → entry.form? = some form →
      form.layout? = some (position, slots) → position.Holds operand → Fill slots fields →
      Formed operand → (∀ p ∈ fields, Formed p.2) →
      Formed (.operation entry.tag operand fields)
  | letIn {values : List (String × Expr)} {body} : (∀ p ∈ values, Formed p.2) → Formed body →
      Formed (.operation "let" (.array (values.map fun p => .binding p.1 p.2)) [("in", body)])
  | lambda {parameters tag names body} : Formed parameters →
      Argument.nodeNames tag parameters = .ok names → Formed body →
      Formed (.operation "lambda" parameters [("expr", body)])

theorem formed_leaf : ∀ value : Leaf, value.node.Formed
  | .reference path => .leaf path (by simp [leafTags])
  | .timestamp iso => .leaf iso (by simp [leafTags])
  | .date iso => .leaf iso (by simp [leafTags])
  | .variable name => .leaf name (by simp [leafTags])
  | .bytes data => .literal (.bytes data)

end Expr

/-- Nodes that terms without accessors build from such nodes. -/
inductive Obtained : Expr → Prop
  | build {term : Program} {env : Env} {bound e atEnd} : term.Within .free →
      (∀ x e', env.lookup x = some (.node e') → Obtained e') →
      (∀ x es, env.lookup x = some (.nodes es) → ∀ e' ∈ es, Obtained e') →
      term.build .byDepth env bound = .ok e atEnd → Obtained e

/-- A term that is built where no name is bound. -/
theorem Obtained.of_build {term : Program} {bound atEnd : Nat} {e : Expr}
    (hterm : term.Within .free) (hbuild : term.build .byDepth [] bound = .ok e atEnd) :
    Obtained e := by
  refine .build hterm ?_ ?_ hbuild
  · intro x e' hx
    cases hx
  · intro x es hx
    cases hx

namespace Expr

/-- The names in a node with a layout are distinct. -/
theorem names_nodup {entry : Entry} {form : Form} {position : Position} {slots : List Slot}
    {fields : List (String × Expr)} (hentry : entry ∈ Catalog.entries)
    (hform : entry.form? = some form) (hlayout : form.layout? = some (position, slots))
    (hfill : Fill slots fields) : (entry.tag :: fields.map Prod.fst).Nodup := by
  obtain ⟨hnodup, htag⟩ := Catalog.fieldNames_nodup entry hentry
  rw [Entry.fieldNames_of_form hform, Form.fieldNames_of_layout hlayout] at hnodup htag
  have hsub := hfill.names_sublist
  exact List.nodup_cons.2 ⟨fun h => htag (hsub.subset h), hsub.nodup hnodup⟩

/-- So they all stand in the wire document. -/
theorem toDocument_operation {tag : String} {operand : Expr} {fields : List (String × Expr)}
    (h : (tag :: fields.map Prod.fst).Nodup) : (operation tag operand fields).toDocument =
      .object ((tag, operand.toDocument) :: fields.map fun p => (p.1, p.2.toDocument)) := by
  rw [toDocument, Document.ofFields, Fields.arrival_of_nodup, fieldDocuments_eq_map]
  simpa [Fields.names, Function.comp_def] using h

theorem toDocument_bindings (values : List (String × Expr)) :
    (array (values.map fun p => .binding p.1 p.2)).toDocument =
      .array (values.map fun p => .object [(p.1, p.2.toDocument)]) := by
  simp [toDocument, Function.comp_def]

theorem toDocument_object {fields : List (String × Expr)} (h : Fields.Ascending fields) :
    (object fields).toDocument =
      .object [("object", .object (fields.map fun p => (p.1, p.2.toDocument)))] := by
  rw [toDocument, Document.ofFields, Fields.arrival_of_nodup, fieldDocuments_eq_map]
  · rfl
  · simpa [Fields.names, Function.comp_def] using h.nodup

end Expr

namespace Parallel

theorem formed_array (es : List (Unit → Expr)) (h : ∀ e ∈ es, (e ()).Formed) :
    (Expr.array (es.map (· ()))).Formed := by
  apply Expr.Formed.array
  intro e he
  obtain ⟨e', he', rfl⟩ := List.mem_map.1 he
  exact h e' he'

theorem formed_parameterNode (names : List String) : (parameterNode names).Formed := by
  have hstrings : (Expr.array (names.map Expr.string)).Formed := by
    refine .array fun e he => ?_
    obtain ⟨name, -, rfl⟩ := List.mem_map.1 he
    exact .literal (.string name)
  match names with
  | [] => exact hstrings
  | [name] => exact .literal (.string name)
  | _ :: _ :: _ => exact hstrings

/-- One run by depth, whose nodes are formed. A world is the count. -/
def single : Parallel Unit where
  numbering _ := .byDepth
  World := Nat
  count w _ := w
  Later w w' := w = w'
  Inside _ _ := True
  enter w n := w + n
  Named _ := True
  Node _ e := (e ()).Formed
  later_refl _ := rfl
  later_trans h h' := h.trans h'
  inside_of_later _ := trivial
  inside_trans _ _ := trivial
  inside_enter _ _ := trivial
  count_enter _ _ _ := rfl
  node_mono _ h := h
  string_eq _ _ _ := rfl
  names_eq _ _ _ _ := rfl
  node_literal _ value := .literal value
  node_array := formed_array
  node_object fields hascending h := by
    refine .object ?_ fun p hp => ?_
    · simpa [Fields.Ascending, Fields.names, Function.comp_def] using hascending
    · obtain ⟨p', hp', rfl⟩ := List.mem_map.1 hp
      exact h p' hp'
  node_leaf _ value _ := Expr.formed_leaf value
  node_operation hentry hform hlayout hfits hfilled := by
    refine .operation hentry hform hlayout (hfits.holds ()) (hfilled.toFill ())
      (hfits.node formed_array) fun p hp => ?_
    obtain ⟨p', hp', rfl⟩ := List.mem_map.1 hp
    exact hfilled.node formed_array p' hp'
  node_let values _ _ h hbody := by
    have hvalues : ∀ p ∈ values.map fun p => (p.1, p.2 ()), p.2.Formed := by
      intro p hp
      obtain ⟨p', hp', rfl⟩ := List.mem_map.1 hp
      exact h p' hp'
    simpa [Function.comp_def] using Expr.Formed.letIn hvalues hbody
  node_lambda hparameters hnames _ hbody := .lambda hparameters (hnames ()) hbody
  node_handed _ _ _ _ := Expr.formed_leaf (.variable _)
  leave := by
    rintro w n _ rfl
    exact ⟨w, rfl, fun _ => rfl⟩
  node_leave := by
    rintro w n _ e - rfl he
    refine ⟨w, rfl, fun _ => rfl, ?_⟩
    exact .lambda (formed_parameterNode _) (nodeNames_parameterNode "lambda" _) he

end Parallel

/-- Nodes that terms without accessors build are formed. -/
theorem Obtained.formed {e : Expr} (h : Obtained e) : e.Formed := by
  induction h with
  | @build term env bound e atEnd hterm _ _ hbuild hnode hnodes =>
    obtain ⟨_, he⟩ := Parallel.node_of_build (P := Parallel.single) (w := bound) rfl
      (fun _ => trivial) hnode hnodes False.elim (Program.uses_of_within term hterm) hbuild
    exact he

end QueryTree

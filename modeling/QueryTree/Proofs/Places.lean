import QueryTree.Proofs.RoundTrip

/-!
# Places

A place in a document is the list of names and indices that lead to it. A path of accessors is such
a place in the wire document of a node, with one more name for an object literal, and the document
there is the wire form of what the accessors find. So a node may be inspected before it is sent or
after.
-/

namespace QueryTree

namespace Document

/-- One step from a document to a part of it. -/
inductive Step where
  | name (name : String)
  | index (index : Nat)
deriving DecidableEq

abbrev Place := List Step

def step? : Step → Document → Option Document
  | .name name, .object fields => fields.lookup name
  | .index index, .array items => items[index]?
  | _, _ => none

/-- What stands at a place. -/
def at? : Place → Document → Option Document
  | [], d => some d
  | step :: place, d => d.step? step >>= at? place

@[simp] theorem at?_nil (d : Document) : d.at? [] = some d := rfl

theorem at?_cons (step : Step) (place : Place) (d : Document) :
    d.at? (step :: place) = d.step? step >>= at? place := rfl

theorem at?_append (p q : Place) (d : Document) : d.at? (p ++ q) = d.at? p >>= at? q := by
  induction p generalizing d with
  | nil => rfl
  | cons step p ih =>
    simp only [List.cons_append, at?_cons]
    cases d.step? step with
    | none => rfl
    | some next => exact ih next

end Document

namespace Expr

/-- The place to which an accessor leads in the wire form. -/
def Step.onWire : Step → Document.Place
  | .field name => [.name name]
  | .element index => [.index index]
  | .key name => [.name objectTag, .name name]

theorem Distinct.toDocument_operation {e : Expr} (h : e.Distinct) (hkind : e.kind = .operation) :
    e.toDocument = .object (e.allFields.map fun p => (p.1, p.2.toDocument)) := by
  cases e with
  | operation tag operand fields => exact Expr.toDocument_operation h
  | _ => cases hkind

theorem kind_of_field {e found : Expr} {name : String} (h : e.field? name = some found) :
    e.kind = .operation := by
  cases e with
  | operation tag operand fields => rfl
  | _ => cases h

/-- What an accessor finds stands in the wire form at the place to which it leads. -/
theorem Distinct.at_onWire {e found : Expr} {step : Step} (h : e.Distinct)
    (hstep : e.step? step = some found) : e.toDocument.at? step.onWire = some found.toDocument := by
  cases step with
  | field name =>
    have hfield : e.allFields.lookup name = some found := hstep
    rw [h.toDocument_operation (kind_of_field hstep), Step.onWire, Document.at?_cons,
      Document.step?, Fields.lookup_map, hfield]
    rfl
  | element index =>
    cases e with
    | array items =>
      have hitem : items[index]? = some found := hstep
      rw [toDocument, toDocuments_eq_map, Step.onWire, Document.at?_cons, Document.step?,
        List.getElem?_map, hitem]
      rfl
    | _ => cases hstep
  | key name =>
    cases e with
    | object fields =>
      have hvalue : fields.lookup name = some found := hstep
      have hpayload : (fields.map fun p => (p.1, p.2.toDocument)).lookup name =
          some found.toDocument := by rw [Fields.lookup_map, hvalue, Option.map_some]
      have hmarked : Document.step? (.name objectTag) (object fields).toDocument =
          some (.object (fields.map fun p => (p.1, p.2.toDocument))) := by
        rw [toDocument_object h, Document.step?, objectTag, Fields.lookup_cons, if_pos rfl]
      rw [Step.onWire, Document.at?_cons, hmarked, Option.bind_eq_bind, Option.bind_some,
        Document.at?_cons, Document.step?, hpayload]
      rfl
    | _ => cases hstep

/-- The same of a path of accessors. -/
theorem at_onWire {e found : Expr} {path : List Step} (h : e.Everywhere Distinct)
    (hpath : e.follow? path = some found) :
    e.toDocument.at? (path.flatMap Step.onWire) = some found.toDocument := by
  induction path generalizing e with
  | nil =>
    cases hpath
    rfl
  | cons step path ih =>
    obtain ⟨next, hstep, hrest⟩ := Option.bind_eq_some_iff.1 hpath
    have hnext : next.Everywhere Distinct := fun s hs => h s (subterms_of_step hstep s hs)
    have hself : e.Distinct := h e (by cases e <;> exact List.mem_cons_self)
    rw [List.flatMap_cons, Document.at?_append, hself.at_onWire hstep]
    exact ih hnext hrest

end Expr

/-- What accessors find in a node that terms build stands at their place in the wire document, in
its wire form; and the names of an operation stand there in their order, its tag first. -/
theorem Obtainable.at_wire_place {e : Expr} (h : Obtainable e) :
    (∀ path found, e.follow? path = some found →
      e.toDocument.at? (path.flatMap Expr.Step.onWire) = some found.toDocument) ∧
    ∀ s ∈ e.subterms, s.kind = .operation → ∃ tag fields, s.tag? = some tag ∧
      s.toDocument = .object fields ∧ Fields.names fields = s.fieldNames ∧
        s.fieldNames.head? = some tag := by
  refine ⟨fun path found => Expr.at_onWire h.distinct, fun s hs hkind => ?_⟩
  have hdocument := (h.distinct s hs).toDocument_operation hkind
  have hnames : Fields.names (s.allFields.map fun p => (p.1, p.2.toDocument)) = s.fieldNames := by
    simp [Fields.names, Expr.fieldNames, Function.comp_def]
  cases s with
  | operation tag operand fields => exact ⟨tag, _, rfl, hdocument, hnames, rfl⟩
  | _ => cases hkind

/-- A key that has the name of the marker, under the marker. -/
theorem extremes_at_wire_place :
    extremes.follow? [.field "after", .key "object"] =
        some (.literal (.integer (-9223372036854775808))) ∧
      extremes.toDocument.at? [.name "after", .name "object", .name "object"] =
        some (.integer (-9223372036854775808)) ∧
      ∃ tag fields, extremes.tag? = some tag ∧ extremes.toDocument = .object fields ∧
        Fields.names fields = ["paginate", "size", "after"] ∧
          extremes.fieldNames.head? = some tag := by
  obtain ⟨hplaces, hnames⟩ := obtainable_extremes.at_wire_place
  have hfound : extremes.follow? [.field "after", .key "object"] =
      some (.literal (.integer (-9223372036854775808))) := rfl
  exact ⟨hfound, hplaces _ _ hfound, hnames extremes List.mem_cons_self rfl⟩

end QueryTree

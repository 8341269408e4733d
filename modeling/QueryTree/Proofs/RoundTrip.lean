import QueryTree.Proofs.Everywhere
import QueryTree.Proofs.Reading
import QueryTree.Command

/-!
# Text and wire document

The text of a node is the text of its wire document, since no name repeats in what builders give.
So a node without floats is read from its text as its wire document, and the check finds in the text
what it finds in the document.
-/

namespace QueryTree

namespace Expr

theorem write_literal (layout : Layout) (level : Nat) (value : Literal) :
    value.toDocument.write layout level = value.write layout level := by
  cases value with
  | float x =>
    rw [Literal.toDocument, Literal.write, Document.floatText]
    split
    · rename_i hfinite
      rw [Document.write, Document.floatText, if_pos hfinite]
    · rfl
  | bytes data =>
    simp [Literal.toDocument, Literal.write, Document.write, Document.writeFields]
  | _ => rfl

theorem write_fields {layout : Layout} {fields : List (String × Expr)}
    (h : ∀ p ∈ fields, ∀ level, p.2.toDocument.write layout level = p.2.write layout level)
    (level : Nat) :
    Document.writeFields layout level (fields.map fun p => (p.1, p.2.toDocument)) =
      writeFields layout level fields := by
  rw [Document.writeFields_eq_map, writeFields_eq_map, List.map_map]
  exact List.map_congr_left fun p hp => congrArg (layout.member p.1) (h p hp level)

/-- A node is written as its wire document, whatever its literals. -/
theorem inherits_write (layout : Layout) : Inherits Distinct fun e =>
    ∀ level, e.toDocument.write layout level = e.write layout level where
  literal value _ level := write_literal layout level value
  array items _ ih level := by
    rw [toDocument, toDocuments_eq_map, Document.write, Document.writeItems_eq_map, write,
      writeItems_eq_map, List.map_map]
    exact congrArg _ (List.map_congr_left fun e he => ih e he (level + 1))
  object fields hascending ih level := by
    rw [toDocument_object hascending, Document.write, Document.writeFields, Document.writeFields,
      Document.write, write_fields ih, write]
    rfl
  binding name value _ ih level := by
    rw [toDocument, Document.write, Document.writeFields, Document.writeFields, ih, write]
  operation tag operand fields hdistinct hoperand ih level := by
    rw [toDocument_operation hdistinct, Document.write, Document.writeFields, write_fields ih,
      hoperand, write]

theorem write_toDocument {e : Expr} (h : e.Everywhere Distinct) (layout : Layout) (level : Nat) :
    e.toDocument.write layout level = e.write layout level :=
  (inherits_write layout).holds e h level

end Expr

/-- What builders give is written as its wire document, in either layout. -/
theorem Obtainable.text_toDocument {e : Expr} (h : Obtainable e) (layout : Layout) :
    e.toDocument.text layout = e.text layout := by
  unfold Document.text Expr.text
  rw [Expr.write_toDocument h.distinct layout 0]

/-- A page with doubles that are not finite, a negative zero and extreme integers. -/
def extremes : Expr :=
  .operation "paginate"
    (.array [.literal (.float ⟨0x7ff8000000000000⟩), .literal (.float ⟨0xfff0000000000000⟩),
      .literal (.float ⟨0x8000000000000000⟩)])
    [("size", .literal (.integer 9223372036854775807)),
      ("after", .object [("", .literal .null),
        ("object", .literal (.integer (-9223372036854775808)))])]

/-- It is normalized, passed on and taken out again. -/
theorem obtainable_extremes : Obtainable extremes := by
  let page : Program := .call paginate
    [(.field "after", .object [("object", .literal (.integer (-9223372036854775808))),
      ("", .literal .null)]),
      (.field "size", .literal (.integer 9223372036854775807)),
      (.field "paginate", .list [.literal (.float ⟨0x7ff8000000000000⟩),
        .literal (.float ⟨0xfff0000000000000⟩), .literal (.float ⟨0x8000000000000000⟩)])]
  let term : Program :=
    .part (.call paginate [(.field "paginate", .list [.normalize page "page"])])
      [.field "paginate", .element 0]
  have hbuild : term.build .byDepth [] 0 = .ok extremes 0 := rfl
  exact .of_build hbuild

theorem extremes_text_toDocument :
    extremes.toDocument.text .compact = extremes.text .compact ∧
      extremes.text .compact =
        "\x7b\"paginate\":[null,null,-0.0],\"size\":9223372036854775807,\"after\":" ++
          "\x7b\"object\":\x7b\"\":null,\"object\":-9223372036854775808\x7d\x7d\x7d" := by
  constructor
  · exact obtainable_extremes.text_toDocument .compact
  · decide +kernel

namespace Expr

/-! ## Wire documents without floats -/

theorem regular_literal {value : Literal} (h : ∀ x, value ≠ .float x) :
    value.toDocument.Regular fun _ => False := by
  cases value with
  | integer n =>
    rw [Literal.toDocument, Document.regular_integer]
    exact ⟨Int64.le_toInt n, Int64.toInt_lt n⟩
  | float x => exact absurd rfl (h x)
  | bytes data => simp [Literal.toDocument]
  | _ => simp [Literal.toDocument]

theorem regular_fields {fields : List (String × Expr)}
    (h : ∀ p ∈ fields, p.2.toDocument.Regular fun _ => False) :
    ∀ p ∈ fields.map fun p => (p.1, p.2.toDocument), p.2.Regular fun _ => False := by
  intro p hp
  obtain ⟨q, hq, rfl⟩ := List.mem_map.1 hp
  exact h q hq

/-- The wire document has each name once, and whole numbers of 64 bits. -/
theorem inherits_regular :
    Inherits (fun s => s.Distinct ∧ ∀ x, s ≠ .literal (.float x)) fun e =>
      e.toDocument.Regular fun _ => False where
  literal value h := regular_literal fun x hx => h.2 x (congrArg Expr.literal hx)
  array items _ ih := by
    rw [toDocument, toDocuments_eq_map, Document.regular_array]
    intro d hd
    obtain ⟨e, he, rfl⟩ := List.mem_map.1 hd
    exact ih e he
  object fields h ih := by
    have hnodup : (Fields.names fields).Nodup := Fields.Ascending.nodup h.1
    have hpayload : (Document.object (fields.map fun p => (p.1, p.2.toDocument))).Regular
        fun _ => False := by
      refine .object ?_ (regular_fields ih)
      simpa [Fields.names, Function.comp_def] using hnodup
    rw [toDocument_object h.1]
    simpa using hpayload
  binding name value _ ih := by
    simpa [toDocument] using ih
  operation tag operand fields h hoperand ih := by
    have hnodup : (tag :: Fields.names fields).Nodup := h.1
    rw [toDocument_operation h.1]
    refine .object ?_ (List.forall_mem_cons.2 ⟨hoperand, regular_fields ih⟩)
    simpa [Fields.names, Function.comp_def] using hnodup

end Expr

/-- What builders give has a wire document that is read back from its text, in either layout, if it
has no floats and is not too deep. The check of the text is the check of this document. -/
theorem Obtainable.parse_wire_text {e : Expr} (h : Obtainable e)
    (hfloat : ∀ s ∈ e.subterms, ∀ x, s ≠ .literal (.float x))
    (hdepth : e.toDocument.depth ≤ Document.Reader.greatestDepth) (layout : Layout) :
    Document.parse (e.text layout) = .ok e.toDocument ∧
      Check.text (some (e.text layout)) = .ok (Check.document e.toDocument) := by
  have hregular : e.toDocument.Regular fun _ => False :=
    Expr.inherits_regular.holds e fun s hs => ⟨h.distinct s hs, hfloat s hs⟩
  have htext : e.toDocument.text layout = e.text layout :=
    congrArg String.ofList (Expr.write_toDocument h.distinct layout 0)
  have hparse : Document.parse (e.text layout) = .ok e.toDocument := by
    rw [← htext]
    exact Document.parse_text hregular hdepth layout
  refine ⟨hparse, ?_⟩
  rw [Check.text, hparse]

/-- A node with names that need escapes, an extreme integer, bytes, and empty brackets. -/
def knotty : Expr :=
  .object [("", .array []), ("\"\\\n\x01é", .literal (.integer (-9223372036854775808))),
    ("b", .literal (.bytes [0, 255])), ("lambda", variableNode "\t😀"), ("let", .object [])]

/-- It is taken out of a list. -/
theorem obtainable_knotty : Obtainable knotty := by
  let fields : List (String × Program) :=
    [("let", .object []), ("lambda", .leaf (.variable "\t😀")), ("", .list []),
      ("b", .leaf (.bytes [0, 255])),
      ("\"\\\n\x01é", .literal (.integer (-9223372036854775808)))]
  let term : Program := .part (.list [.literal .null, .object fields]) [.element 1]
  have hbuild : term.build .byDepth [] 0 = .ok knotty 0 := rfl
  exact .of_build hbuild

theorem knotty_parse_wire_text :
    Document.parse (knotty.text .compact) = .ok knotty.toDocument ∧
      Document.parse (knotty.text .indented) = .ok knotty.toDocument ∧
      Check.text (some (knotty.text .indented)) = .ok (Check.document knotty.toDocument) := by
  have hfloat : ∀ s ∈ knotty.subterms, ∀ x, s ≠ .literal (.float x) := by
    simp [knotty, Expr.subterms, Expr.subtermsFields, Expr.subtermsItems, variableNode, Expr.string]
  have hdepth : knotty.toDocument.depth ≤ Document.Reader.greatestDepth := by
    decide +kernel
  obtain ⟨hcompact, -⟩ := obtainable_knotty.parse_wire_text hfloat hdepth .compact
  exact ⟨hcompact, obtainable_knotty.parse_wire_text hfloat hdepth .indented⟩

end QueryTree

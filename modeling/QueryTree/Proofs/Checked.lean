import QueryTree.Proofs.Formed
import QueryTree.Check

/-!
# Checking what builders give

The check tells nodes apart by their names only. On a node that builders give it reports nothing,
but for one misreading: a bound of n-grams has the name of an operation on a list, so that an empty
list as a bound is taken for that operation without operands.
-/

namespace QueryTree

namespace Expr

def isEmptyArray : Expr → Bool
  | .array [] => true
  | _ => false

/-- The check goes into a field, unless it takes it for the names of a lambda. -/
def isVisited (name : String) (value : Expr) : Bool :=
  !(name == "lambda" && !value.toDocument.isObject)

/-- A bound of n-grams that is an empty list. -/
def hasEmptyBound (tag : String) (fields : List (String × Expr)) : Bool :=
  tag == "ngram" && fields.any fun p => (p.1 == "min" || p.1 == "max") && p.2.isEmptyArray

mutual

/-- Some node that the check visits has an empty list as a bound of n-grams. -/
def misread : Expr → Bool
  | .literal _ => false
  | .array items => misreadItems items
  | .object fields => misreadFields fields
  | .binding _ value => misread value
  | .operation tag operand fields =>
    hasEmptyBound tag fields || (isVisited tag operand && misread operand) ||
      misreadEntries fields

def misreadItems : List Expr → Bool
  | [] => false
  | e :: rest => misread e || misreadItems rest

def misreadFields : List (String × Expr) → Bool
  | [] => false
  | (_, e) :: rest => misread e || misreadFields rest

def misreadEntries : List (String × Expr) → Bool
  | [] => false
  | (name, e) :: rest => (isVisited name e && misread e) || misreadEntries rest

end

end Expr

/-- The second report has all issues of the first one, and further ones if it is said so. -/
def Report.Extends (r : Report) (more : Bool) (r' : Report) : Prop :=
  ∃ issues, r'.issues = r.issues ++ issues ∧ (issues = [] ↔ more = false)

namespace Report

variable {r r' r'' : Report} {more more' : Bool}

theorem extends_refl (r : Report) : r.Extends false r := ⟨[], by simp⟩

theorem Extends.trans (h : r.Extends more r') (h' : r'.Extends more' r'') :
    r.Extends (more || more') r'' := by
  obtain ⟨issues, hissues, hmore⟩ := h
  obtain ⟨issues', hissues', hmore'⟩ := h'
  refine ⟨issues ++ issues', ?_, ?_⟩
  · rw [hissues', hissues, List.append_assoc]
  · rw [List.append_eq_nil_iff, hmore, hmore', Bool.or_eq_false_iff]

theorem extends_add (r : Report) (path message : String) : r.Extends true (r.add path message) :=
  ⟨[⟨path, message⟩], rfl, by simp⟩

theorem extends_countOperation (r : Report) : r.Extends false r.countOperation :=
  ⟨[], by simp [countOperation]⟩

end Report

namespace Check

open Report

/-- Walking the node adds issues if and only if it is misread. -/
def Judged (e : Expr) : Prop :=
  ∀ (path : String) (r : Report), r.Extends e.misread (walk e.toDocument path r)

theorem walkItems_extends {items : List Expr} (h : ∀ e ∈ items, Judged e) (index : Nat)
    (path : String) (r : Report) : r.Extends (Expr.misreadItems items)
      (walkItems (items.map Expr.toDocument) index path r) := by
  induction items generalizing index r with
  | nil => exact extends_refl r
  | cons e rest ih =>
    have he := h e List.mem_cons_self (itemPath path index) r
    exact he.trans (ih (fun e he => h e (List.mem_cons_of_mem _ he)) (index + 1) _)

theorem walkValues_extends {fields : List (String × Expr)} (h : ∀ p ∈ fields, Judged p.2)
    (path : String) (r : Report) : r.Extends (Expr.misreadFields fields)
      (walkValues (fields.map fun p => (p.1, p.2.toDocument)) path r) := by
  induction fields generalizing r with
  | nil => exact extends_refl r
  | cons field rest ih =>
    obtain ⟨name, e⟩ := field
    have he := h (name, e) List.mem_cons_self (fieldPath path name) r
    exact he.trans (ih (fun p hp => h p (List.mem_cons_of_mem _ hp)) _)

/-- Entries of an operation that is no let. -/
theorem walkEntries_extends {fields : List (String × Expr)}
    (hlet : "let" ∉ fields.map Prod.fst) (h : ∀ p ∈ fields, Judged p.2) (path : String)
    (r : Report) : r.Extends (Expr.misreadEntries fields)
      (walkEntries (fields.map fun p => (p.1, p.2.toDocument)) path r) := by
  induction fields generalizing r with
  | nil => exact extends_refl r
  | cons field rest ih =>
    obtain ⟨name, e⟩ := field
    simp only [List.map_cons, List.mem_cons, not_or] at hlet
    have hrest := ih hlet.2 fun p hp => h p (List.mem_cons_of_mem _ hp)
    have he : r.Extends (Expr.isVisited name e && e.misread)
        (if name = "let" then walkBindings e.toDocument (fieldPath path name) r
          else if name = "lambda" ∧ !e.toDocument.isObject then r
          else walk e.toDocument (fieldPath path name) r) := by
      rw [if_neg (Ne.symm hlet.1)]
      split
      · rename_i hskip
        simpa [Expr.isVisited, hskip.1, hskip.2] using extends_refl r
      · rename_i hvisit
        have hvisited : Expr.isVisited name e = true := by
          simp only [not_and, Bool.not_eq_true', Bool.not_eq_false] at hvisit
          by_cases hname : name = "lambda"
          · simp [Expr.isVisited, hvisit hname]
          · simp [Expr.isVisited, hname]
        rw [hvisited, Bool.true_and]
        exact h (name, e) List.mem_cons_self (fieldPath path name) r
    exact he.trans (hrest _)

theorem walkBindingItems_extends {values : List (String × Expr)}
    (h : ∀ p ∈ values, Judged p.2) (index : Nat) (path : String) (r : Report) :
    r.Extends (Expr.misreadItems (values.map fun p => .binding p.1 p.2))
      (walkBindingItems (values.map fun p => .object [(p.1, p.2.toDocument)]) index path r) := by
  induction values generalizing index r with
  | nil => exact extends_refl r
  | cons value rest ih =>
    obtain ⟨name, e⟩ := value
    have he := h (name, e) List.mem_cons_self (fieldPath (itemPath path index) name) r
    exact he.trans (ih (fun p hp => h p (List.mem_cons_of_mem _ hp)) (index + 1) _)

/-! ## Operands -/

theorem checkOperands_extends (fields : List (String × Expr)) (path : String) (r : Report) :
    r.Extends (fields.any fun p => lacksOperands p.1 p.2.toDocument)
      (checkOperands path (fields.map fun p => (p.1, p.2.toDocument)) r) := by
  induction fields generalizing r with
  | nil => exact extends_refl r
  | cons field rest ih =>
    obtain ⟨name, e⟩ := field
    have he : r.Extends (lacksOperands name e.toDocument)
        (if lacksOperands name e.toDocument then
          r.add (fieldPath path name) (noOperands name) else r) := by
      cases lacksOperands name e.toDocument with
      | false => exact extends_refl r
      | true => exact extends_add r _ _
    exact he.trans (ih _)

theorem lacksOperands_toDocument (name : String) (e : Expr) : lacksOperands name e.toDocument =
    (e.isEmptyArray && (Catalog.lookup name).any Entry.isVariadic) := by
  cases e with
  | literal value =>
    cases value with
    | float x =>
      simp only [Expr.toDocument, Literal.toDocument]
      split <;> rfl
    | _ => rfl
  | array items => cases items <;> rfl
  | _ => rfl

/-- An operand under its own tag is never an empty list where that would be an issue. -/
theorem operand_not_lacking {entry : Entry} {form : Form} {position : Position}
    {slots : List Slot} {operand : Expr} (hentry : entry ∈ Catalog.entries)
    (hform : entry.form? = some form) (hlayout : form.layout? = some (position, slots))
    (hholds : position.Holds operand) :
    lacksOperands entry.tag operand.toDocument = false := by
  rw [lacksOperands_toDocument, Catalog.lookup_tag hentry]
  by_cases hvariadic : entry.isVariadic = true
  · obtain rfl : form = .variadic := by
      simpa [Catalog.isVariadic_iff hentry, hform] using hvariadic
    cases hlayout
    obtain ⟨es, rfl, hleast⟩ := hholds
    cases es with
    | nil => cases hleast
    | cons e rest => rfl
  · simp [hvariadic]

/-- Of the names that are looked up beside tags with a layout, the bounds of n-grams need
operands. -/
theorem special_names_variadic : ∀ p ∈ [("min", true), ("max", true), ("var", false),
      ("let", false), ("in", false), ("lambda", false), ("expr", false)],
    (Catalog.lookup p.1).any Entry.isVariadic = p.2 := by
  decide +kernel

/-- Of the fields, only empty bounds of n-grams are taken for operations without operands. -/
theorem fields_lacking {entry : Entry} {form : Form} {position : Position} {slots : List Slot}
    {fields : List (String × Expr)} (hentry : entry ∈ Catalog.entries)
    (hform : entry.form? = some form) (hlayout : form.layout? = some (position, slots))
    (hfill : Fill slots fields) : (fields.any fun p => lacksOperands p.1 p.2.toDocument) =
      Expr.hasEmptyBound entry.tag fields := by
  have hnames : ∀ p ∈ fields, p.1 ∈ entry.fieldNames := by
    intro p hp
    rw [Entry.fieldNames_of_form hform, Form.fieldNames_of_layout hlayout]
    exact hfill.names_sublist.subset (List.mem_map_of_mem hp)
  rw [Bool.eq_iff_iff, Expr.hasEmptyBound, Bool.and_eq_true, List.any_eq_true, List.any_eq_true]
  simp only [lacksOperands_toDocument, Bool.and_eq_true, Bool.or_eq_true, beq_iff_eq]
  constructor
  · rintro ⟨p, hp, hempty, hvariadic⟩
    obtain ⟨other, hother, hvariadic⟩ := (Option.any_eq_true _ _).1 hvariadic
    have hmem : other ∈ Catalog.entries := List.mem_of_find?_eq_some hother
    have htag : other.tag = p.1 := by simpa using List.find?_some hother
    have hbound := Catalog.variadic_field hentry hmem (htag ▸ hnames p hp) hvariadic
    exact ⟨hbound.1, p, hp, htag ▸ hbound.2, hempty⟩
  · rintro ⟨htag, p, hp, hname, hempty⟩
    refine ⟨p, hp, hempty, special_names_variadic (p.1, true) ?_⟩
    rcases hname with hname | hname <;> simp [hname]

/-! ## Nodes -/

theorem shape_of_known {tag : String} (rest : List String)
    (hknown : Catalog.isKnownTag tag = true) (hobject : tag ∉ objectTags)
    (hliteral : tag ∉ literalTags) : Shape.ofNames (tag :: rest) = .operation := by
  unfold Shape.ofNames
  rw [if_pos (by simp [hknown])]
  cases rest with
  | nil => simp [hobject, hliteral]
  | cons name rest => rfl

theorem shape_operation {tag : String} (names : List String)
    (hknown : Catalog.isKnownTag tag = true) (htag : tag ∉ Catalog.reservedTags) :
    Shape.ofNames (tag :: names) = .operation := by
  have hobjects : objectTags ⊆ Catalog.reservedTags := by decide
  have hliterals : literalTags ⊆ Catalog.reservedTags := by decide
  apply shape_of_known names hknown
  · exact fun hmem => htag (hobjects hmem)
  · exact fun hmem => htag (hliterals hmem)

theorem isKnownTag_reserved : ∀ tag ∈ Catalog.reservedTags, Catalog.isKnownTag tag = true := by
  decide +kernel

theorem shape_literals (tag : String) (h : tag ∈ literalTags) : Shape.ofNames [tag] = .literal := by
  have hreserved : literalTags ⊆ Catalog.reservedTags := by decide
  have hapart : ∀ tag ∈ literalTags, tag ∉ objectTags := by decide
  simp [Shape.ofNames, isKnownTag_reserved tag (hreserved h), hapart tag h, h]

theorem shape_markers (tag : String) (h : tag ∈ objectTags) :
    Shape.ofNames [tag] = .objectLiteral := by
  have hreserved : objectTags ⊆ Catalog.reservedTags := by decide
  simp [Shape.ofNames, isKnownTag_reserved tag (hreserved h), h]

theorem shape_binders {tag : String} (h : tag ∈ ["var", "let", "lambda"]) (rest : List String) :
    Shape.ofNames (tag :: rest) = .operation := by
  have hreserved : ["var", "let", "lambda"] ⊆ Catalog.reservedTags := by decide
  have hobject : ∀ tag ∈ ["var", "let", "lambda"], tag ∉ objectTags := by decide
  have hliteral : ∀ tag ∈ ["var", "let", "lambda"], tag ∉ literalTags := by decide
  apply shape_of_known rest
  · exact isKnownTag_reserved tag (hreserved h)
  · exact hobject tag h
  · exact hliteral tag h

theorem binder_not_lacking {name : String} (h : name ∈ ["var", "let", "in", "lambda", "expr"])
    (e : Expr) : lacksOperands name e.toDocument = false := by
  have hvariadic := special_names_variadic (name, false) (by revert h; simp)
  rw [lacksOperands_toDocument, hvariadic, Bool.and_false]

theorem let_not_mem_names {entry : Entry} {form : Form} {position : Position}
    {slots : List Slot} {fields : List (String × Expr)} (hentry : entry ∈ Catalog.entries)
    (hform : entry.form? = some form) (hlayout : form.layout? = some (position, slots))
    (hfill : Fill slots fields) : "let" ∉ entry.tag :: fields.map Prod.fst := by
  have hreserved := Catalog.layout_tag_not_reserved entry hentry (by simp [hform, hlayout])
  have hfields := (Catalog.consistent entry hentry).let_not_field
  rw [Entry.fieldNames_of_form hform, Form.fieldNames_of_layout hlayout] at hfields
  intro hmem
  rcases List.mem_cons.1 hmem with htag | hmem
  · exact hreserved (htag ▸ by simp [Catalog.reservedTags])
  · exact hfields (hfill.names_sublist.subset hmem)

theorem walk_operation {tag : String} {operand : Expr} {fields : List (String × Expr)}
    (hnodup : (tag :: fields.map Prod.fst).Nodup)
    (hshape : Shape.ofNames (tag :: fields.map Prod.fst) = .operation) (path : String)
    (r : Report) : walk (Expr.operation tag operand fields).toDocument path r =
      walkEntries (((tag, operand) :: fields).map fun p => (p.1, p.2.toDocument)) path
        (checkOperands path (((tag, operand) :: fields).map fun p => (p.1, p.2.toDocument))
          r.countOperation) := by
  have hnames : ((tag, operand.toDocument) ::
      fields.map fun p => (p.1, p.2.toDocument)).map Prod.fst = tag :: fields.map Prod.fst := by
    simp [Function.comp_def]
  rw [Expr.toDocument_operation hnodup, walk, hnames, hshape]
  rfl

theorem walk_let (values : List (String × Expr)) (body : Expr) (path : String) (r : Report) :
    walk (Expr.operation "let" (.array (values.map fun p => .binding p.1 p.2))
        [("in", body)]).toDocument path r =
      walkEntries ([("in", body)].map fun p => (p.1, p.2.toDocument)) path
        (walkBindingItems (values.map fun p => .object [(p.1, p.2.toDocument)]) 0
          (fieldPath path "let")
          (checkOperands path ([("let", .array (values.map fun p => .binding p.1 p.2)),
            ("in", body)].map fun p => (p.1, Expr.toDocument p.2)) r.countOperation)) := by
  rw [walk_operation (by simp) (shape_binders (by simp) _)]
  simp only [List.map_cons, List.map_nil, Expr.toDocument_bindings]
  rw [walkEntries, if_pos rfl, walkBindings]

theorem walk_object {fields : List (String × Expr)} (h : Fields.Ascending fields) (path : String)
    (r : Report) : walk (Expr.object fields).toDocument path r =
      walkValues (fields.map fun p => (p.1, p.2.toDocument)) (fieldPath path "object") r := by
  rw [Expr.toDocument_object h, walk, List.map_cons, List.map_nil,
    shape_markers "object" (by simp [objectTags])]
  rfl

theorem walk_literal (value : Literal) (path : String) (r : Report) :
    walk (Expr.literal value).toDocument path r = r := by
  cases value with
  | float x =>
    simp only [Expr.toDocument, Literal.toDocument]
    split <;> rfl
  | bytes data =>
    simp only [Expr.toDocument, Literal.toDocument, walk, List.map_cons, List.map_nil]
    rw [shape_literals bytesTag (by simp [literalTags, bytesTag])]
  | _ => rfl

/-- A literal under its marker. -/
theorem walk_marker {tag : String} (htag : tag ∈ literalTags) (text path : String) (r : Report) :
    walk (Expr.operation tag (.string text) []).toDocument path r = r := by
  rw [Expr.toDocument_operation (by simp), walk, List.map_nil, List.map_cons, List.map_nil,
    shape_literals tag htag]

theorem judged_operation {tag : String} {operand : Expr} {fields : List (String × Expr)}
    (hnodup : (tag :: fields.map Prod.fst).Nodup)
    (hshape : Shape.ofNames (tag :: fields.map Prod.fst) = .operation)
    (hlet : "let" ∉ tag :: fields.map Prod.fst)
    (htag : lacksOperands tag operand.toDocument = false)
    (hlacks : (fields.any fun p => lacksOperands p.1 p.2.toDocument) =
      Expr.hasEmptyBound tag fields)
    (hoperand : Judged operand) (hfields : ∀ p ∈ fields, Judged p.2) :
    Judged (.operation tag operand fields) := by
  intro path r
  have hcount := extends_countOperation r
  have hoperands := checkOperands_extends ((tag, operand) :: fields) path r.countOperation
  have hentries := walkEntries_extends
    (show "let" ∉ ((tag, operand) :: fields).map Prod.fst from hlet)
    (List.forall_mem_cons.2 ⟨hoperand, hfields⟩) path
  rw [List.any_cons, htag, hlacks, Bool.false_or] at hoperands
  have hwalk := (hcount.trans hoperands).trans (hentries _)
  rw [walk_operation hnodup hshape]
  simpa [Expr.misread, Expr.misreadEntries, Bool.or_assoc] using hwalk

theorem judged_let {values : List (String × Expr)} {body : Expr}
    (hvalues : ∀ p ∈ values, Judged p.2) (hbody : Judged body) :
    Judged (.operation "let" (.array (values.map fun p => .binding p.1 p.2))
      [("in", body)]) := by
  intro path r
  have hcount := extends_countOperation r
  have hoperands := checkOperands_extends
    [("let", .array (values.map fun p => .binding p.1 p.2)), ("in", body)] path r.countOperation
  rw [List.any_cons, List.any_cons, List.any_nil, binder_not_lacking (by simp),
    binder_not_lacking (by simp)] at hoperands
  have hlet := walkBindingItems_extends hvalues 0 (fieldPath path "let")
  have hin := walkEntries_extends (show "let" ∉ [("in", body)].map Prod.fst by simp)
    (by simpa using hbody) path
  have hwalk := ((hcount.trans hoperands).trans (hlet _)).trans (hin _)
  have hmisread : (Expr.operation "let" (.array (values.map fun p => .binding p.1 p.2))
      [("in", body)]).misread = (Expr.misreadItems (values.map fun p => .binding p.1 p.2) ||
        Expr.misreadEntries [("in", body)]) := by
    simp [Expr.misread, Expr.hasEmptyBound, Expr.isVisited]
  rw [walk_let, hmisread]
  simpa only [Bool.or_false, Bool.false_or] using hwalk

theorem judged_literal (value : Literal) : Judged (.literal value) := by
  intro path r
  rw [walk_literal]
  exact extends_refl r

theorem judged_marker {tag : String} (htag : tag ∈ literalTags) (text : String) :
    Judged (.operation tag (.string text) []) := by
  intro path r
  have hmisread : (Expr.operation tag (.string text) []).misread = false := by
    simp [Expr.misread, Expr.hasEmptyBound, Expr.misreadEntries, Expr.string]
  rw [walk_marker htag, hmisread]
  exact extends_refl r

theorem judged_leaf {tag : String} (htag : tag ∈ Expr.leafTags) (text : String) :
    Judged (.operation tag (.string text) []) := by
  by_cases hvar : tag = "var"
  · subst hvar
    exact judged_operation (by simp) (shape_binders (by simp) _) (by simp)
      (binder_not_lacking (by simp) _) rfl (judged_literal (.string text)) nofun
  · refine judged_marker ?_ text
    simp only [Expr.leafTags, literalTags, List.mem_cons] at htag ⊢
    tauto

/-- The check reports on a formed node exactly if it is misread. -/
theorem judged_of_formed {e : Expr} (h : e.Formed) : Judged e := by
  induction h with
  | literal value => exact judged_literal value
  | array _ ih =>
    intro path r
    rw [Expr.toDocument, Expr.toDocuments_eq_map, walk]
    exact walkItems_extends ih 0 path r
  | object hascending _ ih =>
    intro path r
    rw [walk_object hascending]
    exact walkValues_extends ih _ r
  | leaf text htag => exact judged_leaf htag text
  | operation hentry hform hlayout hholds hfill _ _ ihoperand ihfields =>
    rename_i entry form position slots operand fields _ _
    have hreserved := Catalog.layout_tag_not_reserved entry hentry (by simp [hform, hlayout])
    exact judged_operation (Expr.names_nodup hentry hform hlayout hfill)
      (shape_operation _ (Catalog.isKnownTag_tag hentry) hreserved)
      (let_not_mem_names hentry hform hlayout hfill)
      (operand_not_lacking hentry hform hlayout hholds)
      (fields_lacking hentry hform hlayout hfill) ihoperand ihfields
  | letIn _ _ ihvalues ihbody => exact judged_let ihvalues ihbody
  | lambda _ _ _ ihparameters ihbody =>
    refine judged_operation (by simp) (shape_binders (by simp) _) (by simp)
      (binder_not_lacking (by simp) _) ?_ ihparameters ?_
    · simp [binder_not_lacking, Expr.hasEmptyBound]
    · simpa using ihbody

end Check

/-- The check of what builders give reports an issue exactly if an empty list that it visits is a
bound of n-grams. -/
theorem Obtained.issues_iff {e : Expr} (h : Obtained e) :
    (Check.document e.toDocument).issues = [] ↔ e.misread = false := by
  obtain ⟨issues, hissues, hmore⟩ := Check.judged_of_formed h.formed "$" .empty
  unfold Check.document
  rw [hissues]
  simpa [Report.empty] using hmore

/-- The builder of n-grams. -/
def ngram : Builder where
  entry := ⟨.strings, "ngram", "ngram", "ngram(terms, min?, max?)", false,
    some ⟨"ngram", .operation .value [.optionalValue "min", .optionalValue "max"]⟩⟩
  tag := "ngram"
  form := .operation .value [.optionalValue "min", .optionalValue "max"]
  listed := by simp [Catalog.entries, Catalog.stringsEntries]
  recipe := rfl

/-- The n-grams of a text with a lower bound. -/
def ngramFrom (least : Program) : Program :=
  .call ngram [(.field "ngram", .literal (.string "x")), (.field "min", least)]

theorem obtained_ngramFrom (least : Program) (h : least.Within .free) {e : Expr} {atEnd : Nat}
    (hbuild : (ngramFrom least).build .byDepth [] 0 = .ok e atEnd) : Obtained e := by
  have hterm : (ngramFrom least).Within .free := ⟨trivial, nofun, nofun, h, nofun, nofun, trivial⟩
  exact .of_build hterm hbuild

theorem no_issues_ngram_one : Obtained (.operation "ngram" (.string "x")
      [("min", .literal (.integer 1))]) ∧
    (Check.document (Expr.operation "ngram" (.string "x")
      [("min", .literal (.integer 1))]).toDocument).issues = [] := by
  have h : Obtained (.operation "ngram" (.string "x") [("min", .literal (.integer 1))]) :=
    obtained_ngramFrom (.literal (.integer 1)) trivial rfl
  exact ⟨h, h.issues_iff.2 (by decide +kernel)⟩

theorem issue_of_empty_bound : ∃ e, Obtained e ∧
    (Check.document e.toDocument).issues ≠ [] := by
  refine ⟨.operation "ngram" (.string "x") [("min", .array [])], ?_, by decide +kernel⟩
  exact obtained_ngramFrom (.list []) trivial rfl

end QueryTree

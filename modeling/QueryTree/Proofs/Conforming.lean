import QueryTree.Proofs.Formed
import QueryTree.Proofs.Names

/-!
# Operations of the catalog

Every operation in what terms build, also with accessors, is one that the catalog describes: it has
the tag of an entry and then the fields of this entry in their order. A builder call adds exactly
those optional fields for which it is given an operand.
-/

namespace QueryTree

open QueryTree.Expr

/-- The entry is found by its tag, and an operation with this tag, operand and further fields is
one that its builder makes. -/
structure Entry.Describes (entry : Entry) (operand : Expr) (fields : List (String × Expr)) :
    Prop where
  found : Catalog.lookup entry.tag = some entry
  built : entry.tag ∉ ["object", "@bytes"]
  distinct : (entry.tag :: fields.map Prod.fst).Nodup
  variadic : entry.isVariadic = true →
    fields = [] ∧ ∃ items, items ≠ [] ∧ operand = .array items
  ordered : ∃ supplied, supplied.Sublist entry.optionalNames ∧
    fields.map Prod.fst = entry.requiredNames ++ supplied

/-- An operation is described by an entry. -/
def Expr.Conforms : Expr → Prop
  | .operation tag operand fields =>
    ∃ entry : Entry, entry.tag = tag ∧ entry.Describes operand fields
  | _ => True

/-- Nodes that terms build from such nodes. -/
inductive Obtainable : Expr → Prop
  | build {term : Program} {env : Env} {bound e atEnd} :
      (∀ x e', env.lookup x = some (.node e') → Obtainable e') →
      (∀ x es, env.lookup x = some (.nodes es) → ∀ e' ∈ es, Obtainable e') →
      term.build .byDepth env bound = .ok e atEnd → Obtainable e

/-- A term that is built where no name is bound. -/
theorem Obtainable.of_build {term : Program} {bound atEnd : Nat} {e : Expr}
    (hbuild : term.build .byDepth [] bound = .ok e atEnd) : Obtainable e := by
  refine .build ?_ ?_ hbuild
  · intro x e' hx
    cases hx
  · intro x es hx
    cases hx

/-! ## Single operations -/

/-- Fields that stand for required slots and then optional ones. -/
theorem Fill.names_eq {slots : List Slot} {fields : List (String × Expr)} (h : Fill slots fields)
    (hslots : slots = slots.filter (!·.optional) ++ slots.filter (·.optional)) :
    ∃ supplied, supplied.Sublist ((slots.filter (·.optional)).map Slot.name) ∧
      fields.map Prod.fst = (slots.filter (!·.optional)).map Slot.name ++ supplied := by
  have happend : ∀ required optional : List Slot, (∀ slot ∈ required, slot.optional = false) →
      ∀ fields, Fill (required ++ optional) fields →
        ∃ supplied, supplied.Sublist (optional.map Slot.name) ∧
          fields.map Prod.fst = required.map Slot.name ++ supplied := by
    intro required optional hrequired fields h
    induction required generalizing fields with
    | nil => exact ⟨_, h.names_sublist, rfl⟩
    | cons slot rest ih =>
      obtain ⟨hslot, hrest⟩ := List.forall_mem_cons.1 hrequired
      cases h with
      | skip hoptional _ =>
        rw [hslot] at hoptional
        cases hoptional
      | fill _ hfill =>
        obtain ⟨supplied, hsub, hnames⟩ := ih hrest _ hfill
        exact ⟨supplied, hsub, congrArg (slot.name :: ·) hnames⟩
  rw [hslots] at h
  exact happend _ _ (fun slot hmem => by simpa using (List.mem_filter.1 hmem).2) fields h

theorem Catalog.describes_layout {entry : Entry} {form : Form} {position : Position}
    {slots : List Slot} {operand : Expr} {fields : List (String × Expr)}
    (hentry : entry ∈ Catalog.entries) (hform : entry.form? = some form)
    (hlayout : form.layout? = some (position, slots)) (hholds : position.Holds operand)
    (hfill : Fill slots fields) : entry.Describes operand fields := by
  have hslots := Catalog.slots_eq_append hentry hform
  have hnames : entry.requiredNames = form.requiredNames ∧
      entry.optionalNames = form.optionalNames := by
    simp [Entry.requiredNames, Entry.optionalNames, hform]
  rw [Form.slots_of_layout hlayout] at hslots
  constructor
  · exact Catalog.lookup_tag hentry
  · have hreserved := Catalog.layout_tag_not_reserved entry hentry (by simp [hform, hlayout])
    simp only [Catalog.reservedTags, List.mem_cons, not_or] at hreserved
    simp [hreserved]
  · exact names_nodup hentry hform hlayout hfill
  · intro hvariadic
    obtain rfl : form = .variadic := by
      simpa [Catalog.isVariadic_iff hentry, hform] using hvariadic
    cases hlayout
    cases hfill
    obtain ⟨items, rfl, hleast⟩ := hholds
    exact ⟨rfl, items, List.ne_nil_of_length_pos hleast, rfl⟩
  · rw [hnames.1, hnames.2, Form.requiredNames, Form.optionalNames, Form.slots_of_layout hlayout]
    exact hfill.names_eq hslots

/-- The entries whose operations have no layout in the catalog. -/
theorem Catalog.special_entries : ∀ p ∈ [("@ref", none), ("@ts", none), ("@date", none),
      ("var", none), ("let", some Form.letIn), ("lambda", some .lambda)],
    (lookup p.1).map Entry.form? = some p.2 := by
  decide +kernel

/-- An entry of a leaf, a let or a lambda describes operations with the fields of its form. -/
theorem Catalog.conforms_special {tag : String} {form? : Option Form}
    (h : (lookup tag).map Entry.form? = some form?) (htag : tag ∉ ["object", "@bytes"])
    (hvariadic : form? ≠ some .variadic) (operand : Expr) {fields : List (String × Expr)}
    (hnames : fields.map Prod.fst = (form?.map Form.requiredNames).getD [])
    (hnodup : (tag :: fields.map Prod.fst).Nodup) :
    (operation tag operand fields).Conforms := by
  obtain ⟨entry, hfound, hform⟩ := Option.map_eq_some_iff.1 h
  obtain rfl : entry.tag = tag := by simpa using List.find?_some hfound
  refine ⟨entry, rfl, hfound, htag, hnodup, fun hentry => ?_, [], List.nil_sublist _, ?_⟩
  · rw [Catalog.isVariadic_iff (List.mem_of_find?_eq_some hfound), hform] at hentry
    exact absurd hentry hvariadic
  · rw [List.append_nil, hnames, Entry.requiredNames, hform]

theorem conforms_leaf (value : Leaf) : value.node.Everywhere Conforms := by
  have hmarker : ∀ tag text, (Catalog.lookup tag).map Entry.form? = some none →
      tag ∉ ["object", "@bytes"] → (operation tag (.string text) []).Everywhere Conforms := by
    intro tag text hform htag
    refine everywhere_operation ?_ (everywhere_literal trivial) nofun
    exact Catalog.conforms_special hform htag nofun _ rfl (List.nodup_singleton tag)
  cases value with
  | bytes data => exact everywhere_literal trivial
  | _ => exact hmarker _ _ (Catalog.special_entries (_, none) (by simp)) (by simp)

theorem conforms_let {values : List (String × Expr)} {body : Expr}
    (hvalues : ∀ p ∈ values, p.2.Everywhere Conforms) (hbody : body.Everywhere Conforms) :
    (operation "let" (.array (values.map fun p => .binding p.1 p.2)) [("in", body)]).Everywhere
      Conforms := by
  apply everywhere_operation
  · exact Catalog.conforms_special (Catalog.special_entries ("let", some .letIn) (by simp))
      (by simp) nofun _ rfl (by simp)
  · refine everywhere_array trivial fun e he => ?_
    obtain ⟨p, hp, rfl⟩ := List.mem_map.1 he
    exact everywhere_binding trivial (hvalues p hp)
  · simpa using hbody

theorem conforms_lambda {parameters body : Expr} (hparameters : parameters.Everywhere Conforms)
    (hbody : body.Everywhere Conforms) : (lambdaNode parameters body).Everywhere Conforms := by
  apply everywhere_operation
  · exact Catalog.conforms_special (Catalog.special_entries ("lambda", some .lambda) (by simp))
      (by simp) nofun _ rfl (by simp)
  · exact hparameters
  · simpa using hbody

/-! ## Accessors -/

/-- What an accessor finds in a node is in the node. -/
theorem subterms_of_step {e found : Expr} {step : Step} (h : e.step? step = some found) :
    ∀ s ∈ found.subterms, s ∈ e.subterms := by
  intro s hs
  cases step with
  | field name =>
    have hmem : (name, found) ∈ e.allFields := Fields.mem_of_lookup h
    cases e with
    | operation tag operand fields =>
      rw [subterms, List.mem_cons, List.mem_append, mem_subtermsFields]
      rcases List.mem_cons.1 hmem with heq | hmem
      · cases heq
        exact .inr (.inl hs)
      · exact .inr (.inr ⟨_, hmem, hs⟩)
    | _ => cases hmem
  | element index =>
    cases e with
    | array items =>
      rw [subterms, List.mem_cons, mem_subtermsItems]
      exact .inr ⟨found, List.mem_of_getElem? h, hs⟩
    | _ => cases h
  | key name =>
    cases e with
    | object fields =>
      rw [subterms, List.mem_cons, mem_subtermsFields]
      exact .inr ⟨_, Fields.mem_of_lookup h, hs⟩
    | _ => cases h

/-! ## Runs -/

namespace Parallel

/-- One run, in whose nodes a property holds everywhere, follows the accessors. -/
theorem accessible_of_everywhere {P : Parallel Unit} {Q : Expr → Prop}
    (hnode : ∀ w e, P.Node w e ↔ (e ()).Everywhere Q) : P.Accessible := by
  intro w e step he
  cases hfound : (e ()).step? step with
  | none => exact .inl fun _ => hfound
  | some found =>
    have hpart : found.Everywhere Q := fun s hs =>
      (hnode w e).1 he s (subterms_of_step hfound s hs)
    exact .inr ⟨fun _ => found, (hnode w _).2 hpart, fun _ => hfound⟩

theorem conforms_array (es : List (Unit → Expr)) (h : ∀ e ∈ es, (e ()).Everywhere Conforms) :
    (Expr.array (es.map (· ()))).Everywhere Conforms := by
  refine everywhere_array trivial fun e he => ?_
  obtain ⟨e', he', rfl⟩ := List.mem_map.1 he
  exact h e' he'

/-- One run, in whose nodes all operations conform to the catalog. -/
def conforming : ByDepth Unit where
  apart _ := 0
  Named _ := True
  Node e := (e ()).Everywhere Conforms
  string_eq _ _ _ := rfl
  names_eq _ _ _ _ := rfl
  node_literal _ := everywhere_literal trivial
  node_array := conforms_array
  node_object fields _ h := by
    refine everywhere_object trivial fun p hp => ?_
    obtain ⟨p', hp', rfl⟩ := List.mem_map.1 hp
    exact h p' hp'
  node_leaf value _ := conforms_leaf value
  node_operation hentry hform hlayout hfits hfilled := by
    have hdescribes := Catalog.describes_layout hentry hform hlayout (hfits.holds ())
      (hfilled.toFill ())
    refine everywhere_operation ⟨_, rfl, hdescribes⟩ (hfits.node conforms_array) fun p hp => ?_
    obtain ⟨p', hp', rfl⟩ := List.mem_map.1 hp
    exact hfilled.node conforms_array p' hp'
  node_let values _ _ h hbody := by
    have hvalues : ∀ p ∈ values.map fun p => (p.1, p.2 ()), p.2.Everywhere Conforms := by
      intro p hp
      obtain ⟨p', hp', rfl⟩ := List.mem_map.1 hp
      exact h p' hp'
    simpa [Function.comp_def] using conforms_let hvalues hbody
  node_lambda hparameters _ _ hbody := conforms_lambda hparameters hbody
  node_variable _ := conforms_leaf (.variable _)
  node_reified _ _ _ hbody :=
    conforms_lambda (everywhere_parameterNode (fun _ => trivial) (fun _ => trivial) _) hbody

end Parallel

theorem Obtainable.conforms {e : Expr} (h : Obtainable e) : e.Everywhere Conforms := by
  induction h with
  | @build term env bound e atEnd _ _ hbuild hnode hnodes =>
    have haccess : Parallel.conforming.parallel.Accessible :=
      Parallel.accessible_of_everywhere fun _ _ => Iff.rfl
    obtain ⟨_, he⟩ := Parallel.node_of_build (P := Parallel.conforming.parallel) (w := bound) rfl
      (fun _ => trivial) hnode hnodes
      (fun _ path _ => haccess.follows path)
      (Program.uses_of_free term (fun _ => trivial) fun _ => trivial) hbuild
    exact he

/-! ## Builder calls -/

/-- The names of the optional fields for which there is an operand, in their order. -/
def Form.suppliedNames (form : Form) (operands : Operands) : List String :=
  (form.slots.filter fun slot => slot.optional && operands.fills slot).map Slot.name

theorem Operands.yields_normalizeSlots (operands : Operands) (numbering : Numbering) (tag : String)
    (slots : List Slot) : Build.Yields (fun fields => fields.map Prod.fst =
      (slots.filter fun slot => !slot.optional || operands.fills slot).map Slot.name)
      (operands.normalizeSlots numbering tag slots) := by
  induction slots with
  | nil => exact Build.yields_pure rfl
  | cons slot rest ih =>
    rw [normalizeSlots]
    split
    · rename_i hskip
      have hleft : (!slot.optional || operands.fills slot) = false := by
        cases hoptional : slot.optional <;> simp_all
      simpa [hleft] using ih
    · rename_i hskip
      have hfilled : (!slot.optional || operands.fills slot) = true := by
        cases hoptional : slot.optional <;> simp_all
      refine Build.yields_bind (Build.yields_true _) fun e _ => ?_
      refine Build.yields_bind ih fun fields hfields => Build.yields_pure ?_
      simp [hfilled, hfields]

/-- Of slots in order, those that are filled are the required ones and then the supplied ones. -/
theorem Form.filled_names {entry : Entry} {form : Form} (hentry : entry ∈ Catalog.entries)
    (hform : entry.form? = some form) (operands : Operands) :
    (form.slots.filter fun slot => !slot.optional || operands.fills slot).map Slot.name =
      form.requiredNames ++ form.suppliedNames operands := by
  rw [Catalog.slots_eq_append hentry hform, List.filter_append, List.filter_filter,
    List.filter_filter, List.map_append]
  congr 2
  · apply List.filter_congr
    intro slot _
    cases slot.optional <;> simp
  · apply List.filter_congr
    intro slot _
    cases slot.optional <;> simp

/-- The node has the tag with an operand, the required fields, and those optional ones for which
there is an operand. -/
def Form.Makes (form : Form) (tag : String) (operands : Operands) (e : Expr) : Prop :=
  ∃ operand fields, e = .operation tag operand fields ∧
    fields.map Prod.fst = form.requiredNames ++ form.suppliedNames operands

theorem Form.yields_makes {entry : Entry} {form : Form} (hentry : entry ∈ Catalog.entries)
    (hform : entry.form? = some form) (hobject : form ≠ .object) (numbering : Numbering)
    (operands : Operands) :
    Build.Yields (form.Makes entry.tag operands) (form.build numbering entry.tag operands) := by
  have any : ∀ {α : Type} (x : Build α), Build.Yields (fun _ => True) x := Build.yields_true
  have hoperation : ∀ position, Build.Yields (form.Makes entry.tag operands)
      (buildOperation numbering entry.tag operands position form.slots) := by
    intro position
    refine Build.yields_bind (any _) fun operand _ => ?_
    refine Build.yields_bind (operands.yields_normalizeSlots numbering entry.tag form.slots) ?_
    intro fields hfields
    exact Build.yields_pure ⟨operand, fields, rfl,
      hfields.trans (filled_names hentry hform operands)⟩
  cases form with
  | constant => exact Build.yields_pure ⟨_, _, rfl, rfl⟩
  | listing => exact hoperation .value
  | operation position fields => exact hoperation position
  | traversal => exact hoperation .lambda
  | call =>
    refine Build.yields_bind (any _) fun arguments _ => ?_
    refine Build.yields_bind (any _) fun function _ => ?_
    exact Build.yields_pure ⟨_, _, rfl, rfl⟩
  | letIn =>
    refine Build.yields_bind (any _) fun values _ => ?_
    refine Build.yields_bind (any _) fun body _ => ?_
    exact Build.yields_pure ⟨_, _, rfl, rfl⟩
  | lambda =>
    rw [(Catalog.consistent entry hentry).tag_of_lambda hform]
    refine Build.yields_bind (any _) fun declared _ => ?_
    refine Build.yields_bind (any _) fun body _ => ?_
    exact Build.yields_pure ⟨_, _, rfl, rfl⟩
  | object => exact absurd rfl hobject

/-- The operand of a listing is the scope that it is given, or null. -/
def Operands.Scopes (operands : Operands) (tag : String) (operand : Expr) : Prop :=
  match operands.field? tag with
  | some a => a.normalize tag = .ok operand
  | none => operand = .null

theorem Form.yields_scoped (numbering : Numbering) (tag : String) (operands : Operands) :
    Build.Yields (fun e => ∃ operand, e = .operation tag operand [] ∧ operands.Scopes tag operand)
      (Form.listing.build numbering tag operands) := by
  have hoperand : Build.Yields (operands.Scopes tag)
      (operands.normalizeAt numbering tag tag .value) := by
    apply Build.yields_ofExcept
    intro operand hok
    rw [Operands.field] at hok
    unfold Operands.Scopes
    cases hfield : operands.field? tag with
    | some a =>
      rw [hfield] at hok
      exact hok
    | none =>
      rw [hfield] at hok
      cases hok
      rfl
  have hnone : Build.Yields (fun fields => fields = [])
      (operands.normalizeSlots numbering tag []) := Build.yields_pure rfl
  refine Build.yields_bind hoperand fun operand hscopes => ?_
  refine Build.yields_bind hnone fun fields hfields => Build.yields_pure ?_
  exact ⟨operand, by rw [hfields], hscopes⟩

/-- Every operation in what terms build is one that the catalog describes. A builder call gives the
required fields and those optional ones that it has an operand for, and a listing its scope. -/
theorem operations_conform :
    (∀ e, Obtainable e → ∀ s ∈ e.subterms, s.kind = .operation →
      ∃ (entry : Entry) (operand : Expr) (fields : List (String × Expr)),
        s = .operation entry.tag operand fields ∧ entry.Describes operand fields) ∧
    ∀ (b : Builder) (numbering : Numbering) (operands : Operands) (bound atEnd : Nat) (e : Expr),
      b.form ≠ .object → b.build numbering operands bound = .ok e atEnd →
        b.form.Makes b.tag operands e ∧ (b.form = .listing →
          ∃ operand, e = .operation b.tag operand [] ∧ operands.Scopes b.tag operand) := by
  constructor
  · intro e he s hs hkind
    have hconforms := he.conforms s hs
    cases s with
    | operation tag operand fields =>
      obtain ⟨entry, rfl, hdescribes⟩ := hconforms
      exact ⟨entry, operand, fields, rfl, hdescribes⟩
    | _ => cases hkind
  · intro b numbering operands bound atEnd e hobject hbuild
    constructor
    · have hmakes := Form.yields_makes b.listed b.formed hobject numbering operands
      rw [b.entry_tag] at hmakes
      exact hmakes bound e atEnd hbuild
    · intro hlisting
      rw [Builder.build, hlisting] at hbuild
      exact Form.yields_scoped numbering b.tag operands bound e atEnd hbuild

/-- The builder of pages. -/
def paginate : Builder where
  entry := ⟨.read, "paginate", "paginate",
    "paginate(set, \x7bsize?, after?, before?, ts?, events?, sources?\x7d)", false,
    some ⟨"paginate", .operation .value
      [.optionalValue "size", .optionalValue "after", .optionalValue "before",
        .optionalValue "ts", .optionalValue "events", .optionalValue "sources"]⟩⟩
  tag := "paginate"
  form := .operation .value [.optionalValue "size", .optionalValue "after", .optionalValue "before",
    .optionalValue "ts", .optionalValue "events", .optionalValue "sources"]
  listed := by simp [Catalog.entries, Catalog.readEntries]
  recipe := rfl

/-- The fields stand in the order of the catalog, an explicit null among them. -/
theorem page_conforms :
    let operands : Operands := [(.field "paginate", .node (variableNode "set")),
      (.field "after", .null), (.field "size", .literal (.integer 10))]
    let page : Expr := .operation "paginate" (variableNode "set")
      [("size", .literal (.integer 10)), ("after", .null)]
    Obtainable page ∧ (∃ (entry : Entry) (operand : Expr) (fields : List (String × Expr)),
      page = .operation entry.tag operand fields ∧ entry.Describes operand fields) ∧
      paginate.build .byDepth operands 0 = .ok page 0 ∧
      paginate.form.Makes "paginate" operands page := by
  intro operands page
  have hpage : Obtainable page := by
    let term : Program := .call paginate [(.field "paginate", .leaf (.variable "set")),
      (.field "after", .literal .null), (.field "size", .literal (.integer 10))]
    have hbuild : term.build .byDepth [] 0 = .ok page 0 := rfl
    refine .build ?_ ?_ hbuild
    · intro x e' hx
      cases hx
    · intro x es hx
      cases hx
  have hmade : paginate.build .byDepth operands 0 = .ok page 0 := rfl
  refine ⟨hpage, ?_, hmade, ?_⟩
  · exact operations_conform.1 page hpage page List.mem_cons_self rfl
  · exact (operations_conform.2 paginate .byDepth operands 0 0 page nofun hmade).1

end QueryTree

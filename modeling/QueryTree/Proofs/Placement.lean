import QueryTree.Proofs.Names
import QueryTree.Proofs.Unambiguous

/-!
# Places of bindings

A binding stands in the list of a let. No accessor separates it from there but one that takes this
list, and what it takes passes for any other node when it is handed on. Without such an accessor
every binding stays in its place, and what looks like an operation in the wire form is one.
-/

namespace QueryTree

namespace Expr

/-- Bindings stand only in the list under the tag of a let. -/
inductive Placed : Expr → Prop
  | literal (value : Literal) : Placed (.literal value)
  | array {items : List Expr} : (∀ e ∈ items, Placed e) → Placed (.array items)
  | object {fields : List (String × Expr)} : (∀ p ∈ fields, Placed p.2) → Placed (.object fields)
  | operation {tag : String} {operand : Expr} {fields : List (String × Expr)} : Placed operand →
      (∀ p ∈ fields, Placed p.2) → Placed (.operation tag operand fields)
  | letIn {values fields : List (String × Expr)} : (∀ p ∈ values, Placed p.2) →
      (∀ p ∈ fields, Placed p.2) →
      Placed (.operation "let" (.array (values.map fun p => .binding p.1 p.2)) fields)

/-- A binding, or a list of some. -/
def Loose : Expr → Prop
  | .binding .. => True
  | .array items => ∃ e ∈ items, e.kind = .binding
  | _ => False

theorem Placed.kind_ne {e : Expr} (h : e.Placed) : e.kind ≠ .binding := by
  cases h <;> exact nofun

theorem Placed.not_loose {e : Expr} (h : e.Placed) : ¬e.Loose := by
  cases h with
  | array hitems =>
    rintro ⟨e, he, hkind⟩
    exact (hitems e he).kind_ne hkind
  | _ => exact id

theorem Placed.operand {tag : String} {operand : Expr} {fields : List (String × Expr)}
    (h : (Expr.operation tag operand fields).Placed) (htag : tag ≠ "let") : operand.Placed := by
  cases h with
  | operation hoperand _ => exact hoperand
  | letIn _ _ => exact absurd rfl htag

theorem Formed.placed {e : Expr} (h : e.Formed) : e.Placed := by
  induction h with
  | literal value => exact .literal value
  | array _ ih => exact .array ih
  | object _ _ ih => exact .object ih
  | leaf text _ => exact .operation (.literal _) (List.forall_mem_nil _)
  | operation _ _ _ _ _ _ _ ihoperand ihfields => exact .operation ihoperand ihfields
  | letIn _ _ ihvalues ihbody => exact .letIn ihvalues (List.forall_mem_singleton.2 ihbody)
  | lambda _ _ _ ihparameters ihbody =>
    exact .operation ihparameters (List.forall_mem_singleton.2 ihbody)

/-! ## Accessors -/

/-- One step leads to a formed node, except to the list of a let. -/
theorem Formed.step {e found : Expr} {step : Step} (h : e.Formed)
    (hstep : e.step? step = some found) :
    found.Formed ∨ step = .field "let" ∧ ∃ values : List (String × Expr),
      found = .array (values.map fun p => .binding p.1 p.2) := by
  cases step with
  | field name =>
    have hmem : (name, found) ∈ e.allFields := Fields.mem_of_lookup hstep
    cases h with
    | leaf text _ =>
      cases List.mem_singleton.1 hmem
      exact .inl (.literal (.string text))
    | operation _ _ _ _ _ hoperand hfields =>
      rcases List.mem_cons.1 hmem with heq | hmem
      · cases heq
        exact .inl hoperand
      · exact .inl (hfields _ hmem)
    | @letIn values body _ hbody =>
      rcases List.mem_cons.1 hmem with heq | hmem
      · cases heq
        exact .inr ⟨rfl, values, rfl⟩
      · cases List.mem_singleton.1 hmem
        exact .inl hbody
    | lambda hparameters _ hbody =>
      rcases List.mem_cons.1 hmem with heq | hmem
      · cases heq
        exact .inl hparameters
      · cases List.mem_singleton.1 hmem
        exact .inl hbody
    | _ => cases hmem
  | element index =>
    cases h with
    | array hitems => exact .inl (hitems found (List.mem_of_getElem? hstep))
    | _ => cases hstep
  | key name =>
    cases h with
    | object _ hfields => exact .inl (hfields _ (Fields.mem_of_lookup hstep))
    | _ => cases hstep

/-- The accessors that take bindings out of a let: the list, or an entry of it. -/
def Takes (path : List Step) : Prop :=
  ∃ before, path = before ++ [.field "let"] ∨
    ∃ index, path = before ++ [.field "let", .element index]

theorem Takes.cons {path : List Step} (h : Takes path) (step : Step) : Takes (step :: path) := by
  obtain ⟨before, rfl | ⟨index, rfl⟩⟩ := h
  · exact ⟨step :: before, .inl rfl⟩
  · exact ⟨step :: before, .inr ⟨index, rfl⟩⟩

theorem not_takes {path : List Step} (h : .field "let" ∉ path) : ¬Takes path := by
  rintro ⟨before, rfl | ⟨index, rfl⟩⟩ <;> simp at h

/-- From the list of a let, accessors lead to this list and its entries, and no further. -/
theorem follow_bindings {values : List (String × Expr)} {path : List Step} {found : Expr}
    (h : (array (values.map fun p => .binding p.1 p.2)).follow? path = some found) :
    found.Formed ∨ found.Loose ∧ Takes (.field "let" :: path) := by
  cases path with
  | nil =>
    obtain rfl := Option.some.inj h
    cases values with
    | nil => exact .inl (.array (List.forall_mem_nil _))
    | cons p rest => exact .inr ⟨⟨_, List.mem_cons_self, rfl⟩, [], .inl rfl⟩
  | cons step path =>
    rw [follow?_cons] at h
    obtain ⟨next, hnext, hfollow⟩ := Option.bind_eq_some_iff.1 h
    cases step with
    | element index =>
      obtain ⟨p, -, rfl⟩ := List.mem_map.1 (List.mem_of_getElem? hnext)
      cases path with
      | nil =>
        obtain rfl := Option.some.inj hfollow
        exact .inr ⟨trivial, [], .inr ⟨index, rfl⟩⟩
      | cons step path =>
        rw [follow?_cons] at hfollow
        cases step <;> cases hfollow
    | _ => cases hnext

theorem Formed.follow {e found : Expr} {path : List Step} (h : e.Formed)
    (hfollow : e.follow? path = some found) : found.Formed ∨ found.Loose ∧ Takes path := by
  induction path generalizing e with
  | nil =>
    obtain rfl := Option.some.inj hfollow
    exact .inl h
  | cons step path ih =>
    rw [follow?_cons] at hfollow
    obtain ⟨next, hnext, hrest⟩ := Option.bind_eq_some_iff.1 hfollow
    rcases h.step hnext with hformed | ⟨rfl, values, rfl⟩
    · exact (ih hformed hrest).imp_right fun ⟨hloose, htakes⟩ => ⟨hloose, htakes.cons step⟩
    · exact follow_bindings hrest

/-- A field that is called like a let is the list of one. -/
theorem Formed.field_let {e found : Expr} (h : e.Formed) (hfield : e.field? "let" = some found) :
    ∃ values : List (String × Expr), found = .array (values.map fun p => .binding p.1 p.2) := by
  have hmem : ("let", found) ∈ e.allFields := Fields.mem_of_lookup hfield
  cases h with
  | letIn _ _ =>
    cases hfield
    exact ⟨_, rfl⟩
  | operation hentry hform hlayout _ hfill _ _ =>
    rcases List.mem_cons.1 hmem with heq | hmem
    · have hreserved := Catalog.layout_tag_not_reserved _ hentry (by simp [hform, hlayout])
      obtain ⟨htag, -⟩ := Prod.mk.inj heq
      rw [← htag] at hreserved
      simp [Catalog.reservedTags] at hreserved
    · have hname := hfill.names_sublist.subset (List.mem_map_of_mem hmem)
      rw [← Form.fieldNames_of_layout hlayout, ← Entry.fieldNames_of_form hform] at hname
      exact absurd hname (Catalog.consistent _ hentry).let_not_field
  | leaf text htag =>
    cases List.mem_singleton.1 hmem
    simp [leafTags] at htag
  | lambda _ _ _ => simp [allFields] at hmem
  | _ => cases hmem

theorem loose_bindings (values : List (String × Expr)) :
    (array (values.map fun p => .binding p.1 p.2)).Loose ∨
      array (values.map fun p => .binding p.1 p.2) = .array [] := by
  cases values with
  | nil => exact .inr rfl
  | cons p rest => exact .inl ⟨_, List.mem_cons_self, rfl⟩

/-- These accessors take bindings, if there are any. -/
theorem Formed.follow_takes {e found : Expr} {path : List Step} (h : e.Formed)
    (hfollow : e.follow? path = some found) (htakes : Takes path) :
    found.Loose ∨ found = .array [] := by
  have hlist : ∀ before list, e.follow? (before ++ [.field "let"]) = some list →
      ∃ values : List (String × Expr), list = .array (values.map fun p => .binding p.1 p.2) := by
    intro before list hlist
    rw [follow?_append] at hlist
    obtain ⟨middle, hmiddle, hstep⟩ := Option.bind_eq_some_iff.1 hlist
    rw [follow?_cons] at hstep
    obtain ⟨_, hfield, hnil⟩ := Option.bind_eq_some_iff.1 hstep
    cases hnil
    rcases h.follow hmiddle with hformed | ⟨hloose, -⟩
    · exact hformed.field_let hfield
    · cases middle <;> first | exact hloose.elim | cases hfield
  obtain ⟨before, rfl | ⟨index, rfl⟩⟩ := htakes
  · obtain ⟨values, rfl⟩ := hlist before found hfollow
    exact loose_bindings values
  · have hpath : before ++ [Step.field "let", .element index] =
        (before ++ [.field "let"]) ++ [.element index] := by simp
    rw [hpath, follow?_append] at hfollow
    obtain ⟨list, hmiddle, hstep⟩ := Option.bind_eq_some_iff.1 hfollow
    obtain ⟨values, rfl⟩ := hlist before list hmiddle
    rw [follow?_cons] at hstep
    obtain ⟨entry, hentry, hnil⟩ := Option.bind_eq_some_iff.1 hstep
    cases hnil
    obtain ⟨p, -, rfl⟩ := List.mem_map.1 (List.mem_of_getElem? hentry)
    exact .inl trivial

/-! ## Subterms -/

theorem Formed.subterms {e : Expr} (h : e.Formed) : ∀ s ∈ e.subterms, s.Formed ∨ s.Loose := by
  have hfields : ∀ {fields : List (String × Expr)},
      (∀ p ∈ fields, ∀ s ∈ p.2.subterms, s.Formed ∨ s.Loose) →
        ∀ s ∈ subtermsFields fields, s.Formed ∨ s.Loose := by
    intro fields ih s hs
    obtain ⟨p, hp, hs⟩ := mem_subtermsFields.1 hs
    exact ih p hp s hs
  have hoperation : ∀ {tag operand fields}, (Expr.operation tag operand fields).Formed →
      (∀ s ∈ operand.subterms, s.Formed ∨ s.Loose) →
      (∀ p ∈ fields, ∀ s ∈ p.2.subterms, s.Formed ∨ s.Loose) →
        ∀ s ∈ (Expr.operation tag operand fields).subterms, s.Formed ∨ s.Loose := by
    intro tag operand fields hformed ihoperand ihfields
    rw [Expr.subterms, List.forall_mem_cons, List.forall_mem_append]
    exact ⟨.inl hformed, ihoperand, hfields ihfields⟩
  induction h with
  | literal value => exact List.forall_mem_singleton.2 (.inl (.literal value))
  | array hitems ih =>
    refine List.forall_mem_cons.2 ⟨.inl (.array hitems), fun s hs => ?_⟩
    obtain ⟨e, he, hs⟩ := mem_subtermsItems.1 hs
    exact ih e he s hs
  | object hascending hvalues ih =>
    exact List.forall_mem_cons.2 ⟨.inl (.object hascending hvalues), hfields ih⟩
  | leaf text htag =>
    refine hoperation (.leaf text htag) ?_ (List.forall_mem_nil _)
    exact List.forall_mem_singleton.2 (.inl (.literal (.string text)))
  | operation hentry hform hlayout hholds hfill hoperand hvalues ihoperand ihvalues =>
    exact hoperation (.operation hentry hform hlayout hholds hfill hoperand hvalues) ihoperand
      ihvalues
  | @letIn values body hvalues hbody ihvalues ihbody =>
    refine hoperation (.letIn hvalues hbody) ?_ (List.forall_mem_singleton.2 ihbody)
    refine List.forall_mem_cons.2 ⟨?_, fun s hs => ?_⟩
    · rcases loose_bindings values with hloose | hnil
      · exact .inr hloose
      · exact .inl (hnil ▸ .array (List.forall_mem_nil _))
    · obtain ⟨entry, hentry, hs⟩ := mem_subtermsItems.1 hs
      obtain ⟨p, hp, rfl⟩ := List.mem_map.1 hentry
      rcases List.mem_cons.1 hs with rfl | hs
      · exact .inr trivial
      · exact ihvalues p hp s hs
  | lambda hparameters hnames hbody ihparameters ihbody =>
    exact hoperation (.lambda hparameters hnames hbody) ihparameters
      (List.forall_mem_singleton.2 ihbody)

/-- An object in the wire form stands for an operation of the catalog, for an object literal or for
bytes. -/
theorem Formed.wire_object {e : Expr} (h : e.Formed) {name : String} {d : Document}
    {fields : List (String × Document)} (hwire : e.toDocument = .object ((name, d) :: fields)) :
    (e.tag? = some name ∧ Catalog.isKnownTag name = true ∧ name ≠ objectTag ∧ name ≠ bytesTag) ∨
      (e.kind = .object ∧ name = objectTag) ∨
      (e.kind = .literal ∧ name = bytesTag) := by
  cases e with
  | operation tag operand others =>
    rw [h.toDocument_operation] at hwire
    cases hwire
    obtain ⟨entry, hentry, htag, -⟩ := h.follows
    exact .inl ⟨rfl, htag ▸ Catalog.isKnownTag_tag hentry, h.tag_ne.2, h.tag_ne.1⟩
  | object _ =>
    cases hwire
    exact .inr (.inl ⟨rfl, rfl⟩)
  | literal value =>
    cases value with
    | bytes data =>
      cases hwire
      exact .inr (.inr ⟨rfl, rfl⟩)
    | float x =>
      rw [toDocument, Literal.toDocument] at hwire
      split at hwire <;> cases hwire
    | _ => cases hwire
  | array items => cases hwire
  | binding name value => cases h

end Expr

/-! ## Terms -/

/-- Nodes that terms build from such nodes, without taking bindings out of a let. -/
inductive Intact : Expr → Prop
  | build {term : Program} {env : Env} {bound e atEnd} : (∀ path ∈ term.paths, ¬Expr.Takes path) →
      (∀ x e', env.lookup x = some (.node e') → Intact e') →
      (∀ x es, env.lookup x = some (.nodes es) → ∀ e' ∈ es, Intact e') →
      term.build .byDepth env bound = .ok e atEnd → Intact e

theorem Parallel.follows_single {path : List Expr.Step} (h : ¬Expr.Takes path) :
    single.Follows path := by
  intro w e he
  cases hfound : (e ()).follow? path with
  | none => exact .inl fun _ => hfound
  | some found =>
    rcases he.follow hfound with hformed | ⟨-, htakes⟩
    · exact .inr ⟨fun _ => found, hformed, fun _ => hfound⟩
    · exact absurd htakes h

theorem Intact.formed {e : Expr} (h : Intact e) : e.Formed := by
  induction h with
  | @build term env bound e atEnd hpaths _ _ hbuild hnode hnodes =>
    obtain ⟨_, he⟩ := Parallel.node_of_build (P := Parallel.single) (w := bound) rfl
      (fun _ => trivial) hnode hnodes
      (fun _ path hpath => Parallel.follows_single (hpaths path hpath))
      (Program.uses_of_free term (fun _ => trivial) fun _ => trivial) hbuild
    exact he

/-- Unless they are taken out of a let, bindings stay in their places, and any other object in the
wire form stands for an operation, for an object literal or for bytes. The accessors that take them
out are those that lead to the list of a let, or to an entry of it. What these find is not placed,
unless the list is empty. -/
theorem Intact.bindings_placed {e : Expr} (h : Intact e) :
    e.Placed ∧
    (∀ s ∈ e.subterms, ¬s.Loose → s.Placed ∧ ∀ name d, s.toDocument = .object [(name, d)] →
      (s.tag? = some name ∧ Catalog.isKnownTag name = true ∧ name ≠ objectTag ∧ name ≠ bytesTag) ∨
        (s.kind = .object ∧ name = objectTag) ∨ (s.kind = .literal ∧ name = bytesTag)) ∧
    ∀ path found, e.follow? path = some found →
      (found.Placed ↔ ¬found.Loose) ∧ (found.Loose ↔ Expr.Takes path ∧ found ≠ .array []) := by
  have hformed := h.formed
  refine ⟨hformed.placed, fun s hs hloose => ?_, fun path found hfollow => ?_⟩
  · have hs' := (hformed.subterms s hs).resolve_right hloose
    exact ⟨hs'.placed, fun name d hwire => hs'.wire_object hwire⟩
  · refine ⟨⟨Expr.Placed.not_loose, fun hloose => ?_⟩, fun hloose => ?_, fun htakes => ?_⟩
    · exact ((hformed.follow hfollow).resolve_right fun hboth => hloose hboth.1).placed
    · rcases hformed.follow hfollow with hfound | ⟨-, htakes⟩
      · exact absurd hloose hfound.placed.not_loose
      · refine ⟨htakes, ?_⟩
        rintro rfl
        obtain ⟨_, hmem, -⟩ := hloose
        cases hmem
    · exact (hformed.follow_takes hfollow htakes.1).resolve_right htakes.2

/-! ## A binding out of its place -/

/-- The builder of sequences. -/
def doBuilder : Builder where
  entry := ⟨.basic, "do_", "do", "do_(exprs...)", true, some ⟨"do", .variadic⟩⟩
  tag := "do"
  form := .variadic
  listed := by simp [Catalog.entries, Catalog.basicEntries]
  recipe := rfl

/-- A let with a name that is also a tag. -/
def boundAdd : Program :=
  .call letBuilder [(.entry "add", .list [.literal (.integer 1)]),
    (.field "in", .leaf (.variable "add"))]

/-- The body of a let is taken out, and bound in a second let around the first one. -/
theorem rebound_bindings_placed :
    let list : Expr := .array [.binding "add" (.array [.literal (.integer 1)])]
    let first : Expr := .operation "let" list [("in", variableNode "add")]
    let second : Expr := .operation "let" (.array [.binding "object" (variableNode "add")])
      [("in", first)]
    Intact second ∧ second.Placed ∧
      (∀ s ∈ second.subterms, ¬s.Loose → s.Placed) ∧
      second.follow? [.field "in", .field "let"] = some list ∧ list.Loose ∧ ¬list.Placed := by
  intro list first second
  have hsecond : Intact second := by
    let term : Program :=
      .call letBuilder [(.entry "object", .part boundAdd [.field "in"]), (.field "in", boundAdd)]
    have hpaths : ∀ path ∈ term.paths, ¬Expr.Takes path :=
      List.forall_mem_singleton.2 (Expr.not_takes (by decide))
    have hbuild : term.build .byDepth [] 0 = .ok second 0 := rfl
    refine .build hpaths ?_ ?_ hbuild
    · intro x e' hx
      cases hx
    · intro x es hx
      cases hx
  obtain ⟨hplaced, hsubterms, htaken⟩ := hsecond.bindings_placed
  have hfollow : second.follow? [.field "in", .field "let"] = some list := rfl
  have htakes : Expr.Takes [.field "in", .field "let"] := ⟨[.field "in"], .inl rfl⟩
  obtain ⟨hiff, hloose⟩ := htaken _ _ hfollow
  have hlist : list.Loose := hloose.2 ⟨htakes, by simp [list]⟩
  exact ⟨hsecond, hplaced, fun s hs hs' => (hsubterms s hs hs').1, hfollow, hlist,
    fun hnot => hiff.1 hnot hlist⟩

/-- An entry of a let, taken out and handed on, reads as an operation in the wire form. -/
theorem taken_binding_not_placed :
    ∃ taken sum : Expr,
      (Program.call doBuilder [(.item, .part boundAdd [.field "let", .element 0])]).build
        .byDepth [] 0 = .ok taken 0 ∧
      (Program.call doBuilder [(.item, .call addBuilder [(.item, .literal (.integer 1))])]).build
        .byDepth [] 0 = .ok sum 0 ∧
      ¬taken.Placed ∧ sum.Placed ∧ taken.toDocument = sum.toDocument := by
  refine ⟨_, _, rfl, rfl, ?_, ?_, rfl⟩
  · intro hplaced
    have hoperand := hplaced.operand (by decide)
    cases hoperand with
    | array hitems => exact (hitems _ List.mem_cons_self).kind_ne rfl
  · have hsum : (Expr.array [.literal (.integer 1)]).Placed :=
      .array (List.forall_mem_singleton.2 (.literal _))
    have hadd : (Expr.operation "add" (.array [.literal (.integer 1)]) []).Placed :=
      .operation hsum (List.forall_mem_nil _)
    exact .operation (.array (List.forall_mem_singleton.2 hadd)) (List.forall_mem_nil _)

end QueryTree

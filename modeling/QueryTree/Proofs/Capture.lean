import QueryTree.Proofs.Depth
import QueryTree.Proofs.Everywhere
import QueryTree.Proofs.Lambda

/-!
# Declared and synthesized names

The body of a form that declares names runs at the count of the form, in which these names do not
count. So the names that are synthesized while it runs are those with a number from this count on,
and a declared name is captured only if it is such a name. Where there is none, every variable that
the body is given refers to the form.
-/

namespace QueryTree

open QueryTree.Expr

/-! ## Synthesized names -/

/-- The name is synthesized for a host function that becomes a lambda while the task runs. -/
def Task.Synthesizes (task : Task) (bound : Nat) (x : String) : Prop :=
  ∃ more tag arity body bound',
    Reaches task bound more (.lambda tag (.function arity body)) bound' ∧
      x ∈ implicitNames bound' arity

theorem Task.Synthesizes.exists_number {task : Task} {bound : Nat} {x : String}
    (h : task.Synthesizes bound x) : ∃ k, bound ≤ k ∧ x = implicitName k := by
  obtain ⟨more, tag, arity, body, bound', hreaches, hx⟩ := h
  obtain ⟨k, hk, rfl⟩ := List.mem_map.1 hx
  have hcount := hreaches.count_eq
  have hfrom := (List.mem_range'_1.1 hk).1
  exact ⟨k, by omega, rfl⟩

/-- A function of so many variables in whose body a function of so many others becomes a lambda. -/
def nesting (outer inner : Nat) : Program :=
  .functionOf outer "outer" (.lambdaOf (.functionOf inner "inner" (.literal .null)))

theorem synthesizes_nesting (tag : String) (names : List String) (env : Env) {bound k : Nat}
    (h : bound ≤ k) :
    (Task.body tag names ((nesting names.length (k + 1)).given env names.length)).Synthesizes bound
      (implicitName k) := by
  let inner : Program := .functionOf (k + 1) "inner" (.literal .null)
  let env' := env.bindNumbered "outer" (names.map variableNode)
  have happlied : Starts (.body tag names ((nesting names.length (k + 1)).given env names.length))
      bound 0 (.host env (nesting names.length (k + 1)) (names.map variableNode)) bound :=
    .applied rfl
  have hgiven : inner.run .byDepth env' bound = .ok (inner.given env' (k + 1)) bound := by
    have harity : inner.arity? = some (k + 1) := rfl
    rw [Program.run_function harity]
    rfl
  have hreaches := ((Reaches.here.within happlied).within .functionOf).within (.normalized hgiven)
  exact ⟨_, _, k + 1, _, bound, hreaches, mem_implicitNames.2 ⟨h, by omega⟩⟩

/-! ## Places under binders -/

namespace Expr

/-- The first node stands in the second one under binders that declare these names, the nearest
first. -/
inductive Stands (s : Expr) : List String → Expr → Prop
  | here : Stands s [] s
  | item (before : List Expr) {e : Expr} (rest : List Expr) {inner : List String} :
      Stands s inner e →
      Stands s (inner ++ (before.flatMap declared).reverse) (.array (before ++ e :: rest))
  | entry {fields : List (String × Expr)} {p : String × Expr} {inner : List String} :
      p ∈ fields → Stands s inner p.2 → Stands s inner (.object fields)
  | binding (name : String) {value : Expr} {inner : List String} :
      Stands s inner value → Stands s inner (.binding name value)
  | operand {tag : String} {operand : Expr} (fields : List (String × Expr))
      {inner : List String} : tag ≠ "lambda" → Stands s inner operand →
      Stands s inner (.operation tag operand fields)
  | field (tag : String) (operand : Expr) {fields : List (String × Expr)} {p : String × Expr}
      {inner : List String} : p ∈ fields → Stands s inner p.2 →
      Stands s (inner ++ (binds tag operand).reverse) (.operation tag operand fields)

/-- The node itself declares none of the names. -/
def Avoids (names : List String) (s : Expr) : Prop :=
  ∀ x ∈ names, x ∉ s.declares ∧ x ∉ s.declared

theorem avoids_of_nil {names : List String} {s : Expr} (h : s.declares = [])
    (h' : s.declared = []) : s.Avoids names := by
  intro x _
  rw [h, h']
  exact ⟨List.not_mem_nil, List.not_mem_nil⟩

theorem mem_subterms_self (e : Expr) : e ∈ e.subterms := by
  cases e <;> exact List.mem_cons_self

theorem Stands.not_mem {names inner : List String} {s e : Expr} (h : s.Stands inner e)
    (he : e.Everywhere (Avoids names)) : ∀ x ∈ names, x ∉ inner := by
  intro x hx
  induction h with
  | here => exact List.not_mem_nil
  | @item before e rest inner _ ih =>
    have hitems : ∀ e' ∈ before ++ e :: rest, e'.Everywhere (Avoids names) := fun e' he' s hs =>
      he s (List.mem_cons_of_mem _ (mem_subtermsItems.2 ⟨e', he', hs⟩))
    rw [List.mem_append, List.mem_reverse, List.mem_flatMap]
    rintro (hinner | ⟨e', he', hdeclared⟩)
    · exact ih (hitems e (by simp)) hinner
    · have havoids := hitems e' (List.mem_append_left _ he') e' (mem_subterms_self e')
      exact (havoids x hx).2 hdeclared
  | entry hp _ ih =>
    exact ih fun s hs => he s (List.mem_cons_of_mem _ (mem_subtermsFields.2 ⟨_, hp, hs⟩))
  | binding name _ ih => exact ih fun s hs => he s (List.mem_cons_of_mem _ hs)
  | operand fields _ _ ih =>
    exact ih fun s hs => he s (List.mem_cons_of_mem _ (List.mem_append_left _ hs))
  | field tag operand hp _ ih =>
    rw [List.mem_append, List.mem_reverse]
    rintro (hinner | hbinds)
    · refine ih (fun s hs => he s (List.mem_cons_of_mem _ (List.mem_append_right _ ?_))) hinner
      exact mem_subtermsFields.2 ⟨_, hp, hs⟩
    · exact (he _ List.mem_cons_self x hx).1 hbinds

theorem mem_resolvedItems (before : List Expr) (e : Expr) (rest : List Expr)
    (scope : List String) : e.resolved ((before.flatMap declared).reverse ++ scope) ∈
      resolvedItems scope (before ++ e :: rest) := by
  induction before generalizing scope with
  | nil => exact List.mem_cons_self
  | cons first before ih =>
    have hdeclared : first.declared.reverse = first.declared := by
      cases first <;> rfl
    have hmem := ih (first.declared ++ scope)
    rw [List.flatMap_cons, List.reverse_append, hdeclared, List.append_assoc]
    exact List.mem_cons_of_mem _ hmem

/-- An operation that stands in a node is resolved there in the scope that the binders around it
make. -/
theorem Stands.resolved_mem {s e : Expr} {inner : List String} (h : s.Stands inner e)
    (hs : s.kind = .operation) (scope : List String) :
    s.resolved (inner ++ scope) ∈ (e.resolved scope).subterms := by
  induction h generalizing scope with
  | here => exact mem_subterms_self _
  | @item before e rest inner _ ih =>
    rw [List.append_assoc]
    have hitem := mem_resolvedItems before e rest scope
    exact List.mem_cons_of_mem _ (mem_subtermsItems.2 ⟨_, hitem, ih _⟩)
  | @entry fields p inner hp _ ih =>
    refine List.mem_cons_of_mem _ (mem_subtermsFields.2 ⟨(p.1, p.2.resolved scope), ?_, ih scope⟩)
    rw [resolvedFields_eq_map]
    exact List.mem_map_of_mem hp
  | binding name _ ih => exact List.mem_cons_of_mem _ (ih scope)
  | @operand tag operand fields inner htag hstands ih =>
    refine List.mem_cons_of_mem _ (List.mem_append_left _ ?_)
    rw [if_neg htag]
    split
    · -- A variable that is bound holds a text, in which no operation stands.
      cases hreference : reference? scope operand with
      | none => exact ih scope
      | some place =>
        obtain ⟨i, hi, -⟩ := Option.map_eq_some_iff.1 hreference
        obtain ⟨x, hx, -⟩ := Option.bind_eq_some_iff.1 hi
        obtain rfl := string?_eq_some hx
        cases hstands
        cases hs
    · exact ih scope
  | @field tag operand fields p inner hp _ ih =>
    rw [List.append_assoc]
    refine List.mem_cons_of_mem _ (List.mem_append_right _ (mem_subtermsFields.2
      ⟨(p.1, p.2.resolved ((binds tag operand).reverse ++ scope)), ?_, ih _⟩))
    rw [resolvedFields_eq_map]
    exact List.mem_map_of_mem hp

/-- The place of a name that no binder in between declares, and no later name of its own binder. -/
theorem position_declared {names inner : List String} {x : String} {i : Nat}
    (hname : names[i]? = some x) (hlast : x ∉ names.drop (i + 1)) (hinner : x ∉ inner)
    (scope : List String) : position x (inner ++ (names.reverse ++ scope)) =
      some (inner.length + (names.length - 1 - i)) := by
  obtain ⟨hi, rfl⟩ := List.getElem?_eq_some_iff.1 hname
  have hsplit : names = names.take i ++ names[i] :: names.drop (i + 1) := by
    rw [← List.drop_eq_getElem_cons hi, List.take_append_drop]
  have hnames : names.reverse ++ scope =
      (names.drop (i + 1)).reverse ++ (names[i] :: ((names.take i).reverse ++ scope)) :=
    (congrArg (·.reverse ++ scope) hsplit).trans (by
      simp only [List.reverse_append, List.reverse_cons, List.append_assoc, List.cons_append,
        List.nil_append])
  rw [position_append_of_not_mem hinner, hnames,
    position_append_of_not_mem (by simpa using hlast), position, if_pos rfl]
  simp only [Option.map_some, List.length_reverse, List.length_drop, Option.some.injEq]
  omega

end Expr

/-! ## Runs from a count on -/

namespace Parallel

variable {names : List String}

/-- An operation that is neither a lambda nor a let declares no names. -/
theorem avoids_operation {tag : String} (hlambda : tag ≠ "lambda") (hlet : tag ≠ "let")
    (operand : Expr) (fields : List (String × Expr)) :
    (Expr.operation tag operand fields).Avoids names :=
  avoids_of_nil (by simp [declares, binds, hlambda, hlet]) rfl

theorem avoids_lambda {parameters body : Expr} (h : ∀ x ∈ names, x ∉ parameters.offered) :
    (lambdaNode parameters body).Avoids names := by
  intro x hx
  simpa [lambdaNode, declares, declared, binds] using h x hx

theorem avoids_let {values : List (String × Expr)} {body : Expr}
    (h : ∀ p ∈ values, p.1 ∉ names) (hvalues : ∀ p ∈ values, p.2.Everywhere (Avoids names))
    (hbody : body.Everywhere (Avoids names)) :
    (Expr.operation "let" (.array (values.map fun p => .binding p.1 p.2))
      [("in", body)]).Everywhere (Avoids names) := by
  have hlist : (Expr.array (values.map fun p => .binding p.1 p.2)).Everywhere (Avoids names) := by
    refine everywhere_array (avoids_of_nil rfl rfl) fun e he => ?_
    obtain ⟨p, hp, rfl⟩ := List.mem_map.1 he
    refine everywhere_binding (fun x hx => ⟨List.not_mem_nil, ?_⟩) (hvalues p hp)
    rw [declared, List.mem_singleton]
    rintro rfl
    exact h p hp hx
  refine everywhere_operation (fun x hx => ⟨?_, List.not_mem_nil⟩) hlist
    (List.forall_mem_singleton.2 hbody)
  rw [declares, binds_let]
  intro hmem
  obtain ⟨p, hp, rfl⟩ := List.mem_map.1 hmem
  exact h p hp hx

theorem avoids_leaf (value : Leaf) : value.node.Everywhere (Avoids names) := by
  refine made_leaf (fun _ => avoids_of_nil rfl rfl) (fun tag text htag => ?_) value
  apply avoids_operation <;> rintro rfl <;> simp [leafTags] at htag

theorem avoids_array (es : List (Unit → Expr)) (h : ∀ e ∈ es, (e ()).Everywhere (Avoids names)) :
    (Expr.array (es.map (· ()))).Everywhere (Avoids names) :=
  made_array (fun _ => avoids_of_nil rfl rfl) es h

/-- One run by depth from a count on, in whose nodes no binder declares one of the names. Those that
are synthesized from this count on are not among them. -/
def avoiding (names : List String) (first : Nat)
    (h : ∀ k, first ≤ k → implicitName k ∉ names) : Parallel Unit where
  numbering _ := .byDepth
  World := { count : Nat // first ≤ count }
  count w _ := w.1
  Later w w' := w = w'
  Inside _ _ := True
  enter w n := ⟨w.1 + n, Nat.le_add_right_of_le w.2⟩
  Named x := x ∉ names
  Node _ e := (e ()).Everywhere (Avoids names)
  later_refl _ := rfl
  later_trans h h' := h.trans h'
  inside_of_later _ := trivial
  inside_trans _ _ := trivial
  inside_enter _ _ := trivial
  count_enter _ _ _ := rfl
  node_mono _ h := h
  string_eq _ _ _ := rfl
  names_eq _ _ _ _ := rfl
  node_literal _ _ := everywhere_literal (avoids_of_nil rfl rfl)
  node_array := avoids_array
  node_object _ _ h := everywhere_object (avoids_of_nil rfl rfl) (made_fields h)
  node_leaf _ value _ := avoids_leaf value
  node_operation hentry hform hlayout hfits hfilled := by
    have hreserved := Catalog.layout_tag_not_reserved _ hentry (by simp [hform, hlayout])
    refine everywhere_operation (avoids_operation ?_ ?_ _ _) (hfits.node avoids_array)
      (made_fields (hfilled.node avoids_array)) <;>
    · intro htag
      rw [htag] at hreserved
      simp [Catalog.reservedTags] at hreserved
  node_let values _ hnames h hbody := by
    have hnames' : ∀ p ∈ values.map fun p => (p.1, p.2 ()), p.1 ∉ names := by
      intro p hp
      obtain ⟨p', hp', rfl⟩ := List.mem_map.1 hp
      exact hnames p' hp'
    simpa [Function.comp_def] using avoids_let hnames' (made_fields h) hbody
  node_lambda hparameters hnode hnames hbody := by
    refine everywhere_operation (avoids_lambda fun x hx hoffered => ?_) hparameters
      (List.forall_mem_singleton.2 hbody)
    rw [Argument.offered_of_nodeNames (hnode ())] at hoffered
    exact hnames x hoffered hx
  node_handed _ _ _ _ := avoids_leaf (.variable _)
  leave := by
    rintro w n _ rfl
    exact ⟨w, rfl, fun _ => rfl⟩
  node_leave := by
    rintro w n _ e - rfl he
    have hparameters : (parameterNode (implicitNames w.1 n)).Everywhere (Avoids names) :=
      everywhere_parameterNode (fun _ => avoids_of_nil rfl rfl) (fun _ => avoids_of_nil rfl rfl) _
    refine ⟨w, rfl, fun _ => rfl, everywhere_operation (avoids_lambda fun x hx hoffered => ?_)
      hparameters (List.forall_mem_singleton.2 he)⟩
    rw [offered_parameterNode] at hoffered
    obtain ⟨k, hk, rfl⟩ := List.mem_map.1 hoffered
    exact h k (Nat.le_trans w.2 (List.mem_range'_1.1 hk).1) hx

end Parallel

/-! ## Forms that declare names -/

/-- The call runs a function term under names that it declares. -/
structure Builder.Hosts (b : Builder) (operands : Operands) (names : List String) (env : Env)
    (f : Program) (bound : Nat) : Prop where
  arity : f.arity? = some names.length
  starts : Starts (.call b operands) bound 0 (.body b.tag names (f.given env names.length)) bound

/-- In the body of the node a variable with one of the names refers to the node, to the last place
where the node declares it, whatever binders and scope are around. -/
def Expr.Serves (names : List String) (e body : Expr) : Prop :=
  ∀ inner i x, names[i]? = some x → x ∉ names.drop (i + 1) → (variableNode x).Stands inner body →
    ∀ scope, position x (inner ++ (names.reverse ++ scope)) =
        some (inner.length + (names.length - 1 - i)) ∧
      Expr.operation "var" (marks (inner.length + (names.length - 1 - i))) [] ∈
        (e.resolved scope).subterms

theorem Expr.serves_of_avoids {tag field : String} {operand body : Expr} {names : List String}
    (hbinds : binds tag operand = names) (hbody : body.Everywhere (Avoids names)) :
    (Expr.operation tag operand [(field, body)]).Serves names body := by
  intro inner i x hname hlast hstands scope
  have hinner := hstands.not_mem hbody x (List.mem_of_getElem? hname)
  have hposition := position_declared hname hlast hinner scope
  refine ⟨hposition, ?_⟩
  have hform := Stands.field tag operand (p := (field, body)) (List.mem_singleton.2 rfl) hstands
  have hmem := hform.resolved_mem rfl scope
  rw [hbinds, List.append_assoc, resolved_variableNode, hposition] at hmem
  exact hmem

/-- The node in a binding position offers the names that are declared there. -/
theorem Argument.offered_parameters {tag : String} {a : Argument} {parameters : Expr}
    {names : List String} (h : a.bindingNames tag = .ok (parameters, names)) :
    parameters.offered = names := by
  cases a with
  | literal value =>
    cases value <;> cases h
    rfl
  | array items =>
    rw [bindingNames] at h
    obtain ⟨found, -, h⟩ := bind_ok h
    cases h
    exact offered_of_nodeNames (Parallel.nodeNames_strings tag names)
  | node e =>
    rw [bindingNames] at h
    obtain ⟨found, hnames, h⟩ := bind_ok h
    cases h
    exact offered_of_nodeNames hnames
  | _ => cases h

/-- What such a form makes of its body. -/
theorem Builder.build_declaring {b : Builder} {operands : Operands} {names : List String}
    {a : Argument} {bound atEnd : Nat} {e : Expr}
    (h : Starts (.call b operands) bound 0 (.body b.tag names a) bound)
    (hbuild : b.build .byDepth operands bound = .ok e atEnd) :
    ∃ operand field body, e = .operation b.tag operand [(field, body)] ∧
      binds b.tag operand = names ∧
      a.normalizeBody .byDepth b.tag names bound = .ok body atEnd := by
  cases h with
  | letIn hform hvalues =>
    have htag : b.tag = "let" := Builder.tag_of_letIn hform
    rw [Builder.build, hform, Form.build, Form.buildLet, hvalues] at hbuild
    obtain ⟨values, _, hok, hrest⟩ := Build.bind_eq_ok hbuild
    cases hok
    obtain ⟨body, _, hbody, hnode⟩ := Build.bind_eq_ok hrest
    cases hnode
    refine ⟨_, "in", body, rfl, ?_, hbody⟩
    rw [htag, binds_let]
  | @declared _ _ parameters _ _ hform hnames =>
    have htag : b.tag = "lambda" := Builder.tag_of_lambda hform
    rw [Builder.build, hform, Form.build, Form.buildLambda, hnames] at hbuild
    obtain ⟨_, _, hok, hrest⟩ := Build.bind_eq_ok hbuild
    cases hok
    obtain ⟨body, _, hbody, hnode⟩ := Build.bind_eq_ok hrest
    cases hnode
    rw [htag] at hnames hbody ⊢
    exact ⟨parameters, "expr", body, rfl, Argument.offered_parameters hnames, hbody⟩

/-- A body that runs from a count on and declares none of the names itself. -/
theorem Program.avoids_of_hosted {names : List String} {bound atEnd : Nat}
    (hnames : ∀ k, bound ≤ k → implicitName k ∉ names) {f : Program} {env : Env}
    {reads : String → Prop} (hf : f.arity? = some names.length)
    (huses : f.Uses True (.naming (· ∉ names) reads env))
    (hcaptured : ∀ x, reads x → ∀ e ∈ env.captured x, e.Everywhere (Avoids names)) {tag : String}
    {body : Expr} (hbody : (f.given env names.length).normalizeBody .byDepth tag names bound =
      .ok body atEnd) : body.Everywhere (Avoids names) := by
  let w : (Parallel.avoiding names bound hnames).World := ⟨bound, Nat.le_refl bound⟩
  have henv : (Parallel.avoiding names bound hnames).Envs (.naming (· ∉ names) reads env) w
      (fun _ => env) := Parallel.envs_captured (fun _ h => h) hcaptured
  have hhanded : ∀ e ∈ names.map fun x (_ : Unit) => variableNode x,
      (Parallel.avoiding names bound hnames).Handed w e := by
    intro e he
    obtain ⟨x, -, rfl⟩ := List.mem_map.1 he
    exact ⟨Parallel.avoids_leaf (.variable x), fun _ => rfl⟩
  have haccess : (Parallel.avoiding names bound hnames).Accessible :=
    Parallel.accessible_of_everywhere fun _ _ => Iff.rfl
  obtain ⟨w', -, hends⟩ := Parallel.ends_hosted_of_uses
    (fun _ => haccess) hf henv huses tag (by simp) hhanded
  have henter : (f.given env names.length).normalizeBody .byDepth tag names =
      Argument.enter .byDepth tag (f.hosted .byDepth env) (names.map variableNode) := if_pos rfl
  simp only [List.map_map, Function.comp_def] at hends
  rw [henter] at hbody
  rcases hends with ⟨body', hbody', hok⟩ | ⟨stop, hstop⟩
  · cases (hok ()).symm.trans hbody
    exact hbody'
  · cases (hstop ()).symm.trans hbody

/-- The names synthesized while a body runs under declared names are apart from these, whatever the
form and the body, if and only if none of the declared names has a number from the count of the form
on. The variables of the body then refer to the form, unless the body itself or a node that it
captures declares their names again. -/
theorem synthesized_names_apart (names : List String) (bound : Nat) :
    ((∀ (b : Builder) (operands : Operands) (env : Env) (f : Program),
        b.Hosts operands names env f bound → ∀ x ∈ names,
          ¬(Task.body b.tag names (f.given env names.length)).Synthesizes bound x) ↔
      ∀ k, bound ≤ k → implicitName k ∉ names) ∧
    ((∀ k, bound ≤ k → implicitName k ∉ names) →
      ∀ (b : Builder) (operands : Operands) (env : Env) (f : Program) (reads : String → Prop)
        (e : Expr) (atEnd : Nat), b.Hosts operands names env f bound →
        f.Uses True (.naming (· ∉ names) reads env) →
        (∀ x, reads x → ∀ s ∈ env.captured x, s.Everywhere (Avoids names)) →
        b.build .byDepth operands bound = .ok e atEnd →
        ∃ operand field body, e = .operation b.tag operand [(field, body)] ∧ e.declares = names ∧
          (∀ s ∈ body.subterms, ∀ x ∈ names, x ∉ s.declares) ∧ e.Serves names body) := by
  refine ⟨⟨fun hapart k hk hmem => ?_, fun hnames b operands env f _ x hx hsynthesizes => ?_⟩, ?_⟩
  · obtain ⟨a, -, hdeclared⟩ := Program.run_namesTerm .byDepth [] "lambda" names
    let f := nesting names.length (k + 1)
    let operands : Operands := [(.field "lambda", a), (.field "expr", f.given [] names.length)]
    have hoperand : operands.field "lambda" = a := by
      simp [operands, Operands.field, Operands.field?]
    have hbody : operands.field "expr" = f.given [] names.length := by
      simp [operands, Operands.field, Operands.field?]
    have hstarts : Starts (.call explicitLambda operands) bound 0
        (.body "lambda" names (operands.field "expr")) bound :=
      .declared rfl (hoperand ▸ hdeclared)
    rw [hbody] at hstarts
    exact hapart explicitLambda operands [] f ⟨rfl, hstarts⟩ _ hmem
      (synthesizes_nesting "lambda" names [] hk)
  · obtain ⟨k, hk, rfl⟩ := hsynthesizes.exists_number
    exact hnames k hk hx
  · intro hnames b operands env f reads e atEnd hhosts huses hcaptured hbuild
    obtain ⟨operand, field, body, rfl, hbinds, hbody⟩ :=
      Builder.build_declaring hhosts.starts hbuild
    have havoids := Program.avoids_of_hosted hnames hhosts.arity huses hcaptured hbody
    exact ⟨operand, field, body, rfl, hbinds, fun s hs x hx => (havoids s hs x hx).1,
      serves_of_avoids hbinds havoids⟩

/-- Under a native lambda a form may declare the name with the number of this lambda again. -/
theorem declared_names_serve :
    let inner : Program := .function ["z"] (.list [.get "x", .get "y", .get "z"])
    let f : Program := .function ["x", "y"] (.lambdaOf inner)
    let names : List String := [implicitName 0, "a"]
    let operands : Operands := [(.field "lambda", .array (names.map (.literal <| .string ·))),
      (.field "expr", f.given [] 2)]
    let body : Expr := lambdaNode (.string (implicitName 1))
      (.array [variableNode (implicitName 0), variableNode "a", variableNode (implicitName 1)])
    let e : Expr := lambdaNode (.array (names.map Expr.string)) body
    explicitLambda.build .byDepth operands 1 = .ok e 1 ∧
      (∀ x ∈ names, ¬(Task.body "lambda" names (f.given [] 2)).Synthesizes 1 x) ∧
      (∀ s ∈ body.subterms, ∀ x ∈ names, x ∉ s.declares) ∧ e.Serves names body := by
  intro inner f names operands body e
  have hnames : ∀ k, 1 ≤ k → implicitName k ∉ names := by
    have hexplicit : Explicit "a" := by
      rw [explicit_iff]
      decide
    intro k hk hmem
    rcases List.mem_cons.1 hmem with heq | hmem
    · have hzero := implicitName_injective heq
      omega
    · exact hexplicit k (List.mem_singleton.1 hmem).symm
  have hhosts : explicitLambda.Hosts operands names [] f 1 :=
    ⟨rfl, Starts.declared (b := explicitLambda) (c := 1) rfl rfl⟩
  have huses : f.Uses True (.naming (· ∉ names) (fun _ => True) []) := by
    simp [f, inner, Program.lambdaOf, Program.Uses, Program.UsesItems, Usage.under, Usage.naming]
  have hcaptured : ∀ x, True → ∀ s ∈ Env.captured [] x, s.Everywhere (Avoids names) :=
    fun _ _ => List.forall_mem_nil _
  have hbuild : explicitLambda.build .byDepth operands 1 = .ok e 1 := rfl
  obtain ⟨hapart, hserves⟩ := synthesized_names_apart names 1
  obtain ⟨operand, field, body', he, -, hdeclares, hbody⟩ :=
    hserves hnames explicitLambda operands [] f (fun _ => True) e 1 hhosts huses hcaptured hbuild
  simp only [e, lambdaNode, Expr.operation.injEq, List.cons.injEq, Prod.mk.injEq] at he
  obtain ⟨-, -, ⟨-, rfl⟩, -⟩ := he
  exact ⟨hbuild, hapart.2 hnames explicitLambda operands [] f hhosts, hdeclares, hbody⟩

/-- At the top a declared name with the first number is captured: the variable of the outer lambda,
handed to a function inside, refers to the inner one. -/
theorem declared_name_captured :
    let f : Program := .function ["x"] (.lambdaOf (.function ["y"] (.get "x")))
    let operands : String → Operands := fun name =>
      [(.field "lambda", .literal (.string name)), (.field "expr", f.given [] 1)]
    let node : String → Expr := fun name =>
      lambdaNode (.string name) (lambdaNode (.string (implicitName 0)) (variableNode name))
    explicitLambda.Hosts (operands (implicitName 0)) [implicitName 0] [] f 0 ∧
      (Task.body "lambda" [implicitName 0] (f.given [] 1)).Synthesizes 0 (implicitName 0) ∧
      explicitLambda.build .byDepth (operands (implicitName 0)) 0 =
        .ok (node (implicitName 0)) 0 ∧
      explicitLambda.build .byDepth (operands "a") 0 = .ok (node "a") 0 ∧
      (node (implicitName 0)).resolved [] ≠ (node "a").resolved [] := by
  intro f operands node
  have hhosts : explicitLambda.Hosts (operands (implicitName 0)) [implicitName 0] [] f 0 :=
    ⟨rfl, Starts.declared (b := explicitLambda) (c := 0) rfl rfl⟩
  have happlied : Starts (.body "lambda" [implicitName 0] (f.given [] 1)) 0 0
      (.host [] f [variableNode (implicitName 0)]) 0 := .applied rfl
  have hreaches := ((Reaches.here.within happlied).within .function).within (.normalized rfl)
  have hinner : (node (implicitName 0)).resolved [] =
      lambdaNode (marks 1) (lambdaNode (marks 1) (.operation "var" (marks 0) [])) := rfl
  have houter : (node "a").resolved [] =
      lambdaNode (marks 1) (lambdaNode (marks 1) (.operation "var" (marks 1) [])) := rfl
  refine ⟨hhosts, ⟨_, _, 1, _, 0, hreaches, List.mem_singleton.2 rfl⟩, rfl, rfl, ?_⟩
  rw [hinner, houter]
  simp [lambdaNode, marks]

end QueryTree
